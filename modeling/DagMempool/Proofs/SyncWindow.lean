import DagMempool.Proofs.DagRuns
import DagMempool.Proofs.Reap

/-!
# The window of a sync request

A request is answered for the rounds from `FromRound` to a last round, which is what was
asked for, or the highest round, cut down to the batch size. All of it wraps around. The
rounds looked at are never more than the batch size, with one exception: a window that
ends in the last round of all is never left, since the counter wraps before it gets past
it. Both `FromRound` and `ToRound` come from the peer, so a peer can ask for that window.

What a response has is what the rounds of the window list. It is cut from the low end, so
a responder that has dropped its low rounds answers with nothing, however much it holds
above them.
-/

namespace DagMempool

namespace Dag

variable {CS : Type} [CertificateStore CS]

theorem Shaped.round_of_listed [TalliesRounds CS] {d : Dag} (h : d.Shaped) {certStore : CS}
    (hsound : TalliesRounds.sound certStore) {order : IterOrder Certificate} {r : UInt64}
    {c : Certificate} (hc : c ∈ d.getCertificatesForRound certStore order r) : c.round = r := by
  cases hr : d.rounds.has r with
  | true => exact ((h.mem_getCertificatesForRound certStore order hr).mp hc).2
  | false =>
    have hnone : d.rounds.get r = none := by
      rw [GoMap.has] at hr
      simpa using hr
    rw [getCertificatesForRound_of_none hnone] at hc
    exact (TalliesRounds.stored hsound hc).2

/-- `GetOrderedCertificates` with fuel for so many rounds and no more. -/
def collectWithin [SliceSort] (d : Dag) (certStore : CS) (order : IterOrder Certificate)
    (rounds : Nat) (fromRound toRound : UInt64) : Option (List Certificate) :=
  if toRound < fromRound then some []
  else d.orderedLoop certStore order toRound (rounds + 1) fromRound []

theorem collectWithin_eq [SliceSort] (d : Dag) (certStore : CS) (order : IterOrder Certificate)
    {rounds : Nat} {fromRound toRound : UInt64} (hlast : toRound.toNat < 2 ^ 64 - 1)
    (hrounds : toRound.toNat + 1 - fromRound.toNat ≤ rounds) :
    d.collectWithin certStore order rounds fromRound toRound =
      d.getOrderedCertificates certStore order fromRound toRound := by
  unfold collectWithin getOrderedCertificates
  split
  · rfl
  · rw [d.orderedLoop_eq certStore order hlast _ _ _ (by omega),
      d.orderedLoop_eq certStore order hlast _ _ _ (by show _ < 2 ^ 64 + 1; omega)]

theorem mem_getOrderedCertificates_iff [SliceSort] {d : Dag} {certStore : CS}
    {order : IterOrder Certificate} {fromRound toRound : UInt64} {certs : List Certificate}
    (hlast : toRound.toNat < 2 ^ 64 - 1)
    (h : d.getOrderedCertificates certStore order fromRound toRound = some certs)
    {c : Certificate} :
    c ∈ certs ↔ ∃ r, fromRound ≤ r ∧ r ≤ toRound ∧
      c ∈ d.getCertificatesForRound certStore order r := by
  have hsucc : (toRound + 1).toNat = toRound.toNat + 1 := toNat_succ (by omega)
  rw [d.getOrderedCertificates_eq certStore order fromRound hlast] at h
  cases h
  simp only [List.mem_flatMap, mem_roundsFrom, and_assoc]
  refine exists_congr fun r => and_congr_right fun _ => and_congr ?_ SliceSort.mem_sortSlice
  rw [UInt64.lt_iff_toNat_lt, UInt64.le_iff_toNat_le, hsucc]
  omega

end Dag

namespace SyncManager

variable {BS CS : Type} [BatchStore BS] [CertificateStore CS]

/-! ## Bounded work

The loop over a window ends if there is a round after the last, and then makes as many turns as
the window has rounds. -/

variable (s : SyncManager) (dag : Dag) (req : SyncRequest)

theorem lastRound_zero (h : req.toRound = 0) :
    s.lastRound dag req =
      if s.cfg.syncBatchSize < dag.highestRound - req.fromRound + 1 then
        req.fromRound + s.cfg.syncBatchSize - 1
      else dag.highestRound := by
  rw [lastRound, if_pos h]

theorem window_le (hsize : 1 ≤ s.cfg.syncBatchSize)
    (hlast : (s.lastRound dag req).toNat < 2 ^ 64 - 1) :
    (s.lastRound dag req).toNat + 1 - req.fromRound.toNat ≤ s.cfg.syncBatchSize.toNat := by
  unfold lastRound at hlast ⊢
  generalize (if req.toRound = 0 then dag.highestRound else req.toRound) = toRound at hlast ⊢
  simp only [UInt64.lt_iff_toNat_lt, UInt64.le_iff_toNat_le, UInt64.toNat_add, UInt64.toNat_sub,
    UInt64.toNat_one] at hsize hlast ⊢
  split at hlast
  · next hcut =>
      rw [if_pos hcut]
      simp only [UInt64.toNat_add, UInt64.toNat_sub, UInt64.toNat_one] at hlast ⊢
      omega
  · next hcut =>
      rw [if_neg hcut]
      omega

def respond (s : SyncManager) (dag : Dag) (batchStore : BS) (req : SyncRequest)
    (certificates : List Certificate) : SyncResponse :=
  { certificates, batches := collectBatches batchStore certificates
    fromRound := req.fromRound, toRound := s.lastRound dag req }

theorem handleSyncRequest_eq_some [SliceSort] {s : SyncManager} {dag : Dag} {batchStore : BS}
    {certStore : CS} {order : IterOrder Certificate} {req : SyncRequest} {resp : SyncResponse} :
    s.handleSyncRequest dag batchStore certStore order req = some resp ↔
      ∃ certs, dag.getOrderedCertificates certStore order req.fromRound
          (s.lastRound dag req) = some certs ∧ resp = s.respond dag batchStore req certs := by
  unfold handleSyncRequest
  dsimp only
  split
  · next hnone => simp [hnone]
  · next certs hcerts =>
      rw [hcerts]
      constructor
      · intro h
        exact ⟨certs, rfl, (Option.some.inj h).symm⟩
      · rintro ⟨certs', hc, rfl⟩
        obtain rfl := Option.some.inj hc
        rfl

theorem ends_of_handleSyncRequest [SliceSort] {s : SyncManager} {dag : Dag} {batchStore : BS}
    {certStore : CS} {order : IterOrder Certificate} {req : SyncRequest} {resp : SyncResponse}
    (h : s.handleSyncRequest dag batchStore certStore order req = some resp) :
    (s.lastRound dag req).toNat < 2 ^ 64 - 1 := by
  obtain ⟨certs, hcerts, -⟩ := handleSyncRequest_eq_some.mp h
  by_contra hlast
  have hle : ¬ s.lastRound dag req < req.fromRound := by
    have hfrom := req.fromRound.toNat_lt
    rw [UInt64.lt_iff_toNat_lt]
    omega
  rw [Dag.getOrderedCertificates, if_neg hle, dag.orderedLoop_last certStore order hlast]
    at hcerts
  cases hcerts

/-- A request is answered exactly if its window does not end in the last round of all; then
no more rounds are looked at than the batch size, and what is answered is of the rounds of
the window. -/
theorem handleSyncRequest_bounded [SliceSort] [TalliesRounds CS] (s : SyncManager) (dag : Dag)
    (batchStore : BS) (certStore : CS) (order : IterOrder Certificate) (req : SyncRequest)
    (hsize : 1 ≤ s.cfg.syncBatchSize) (hshaped : dag.Shaped)
    (hsound : TalliesRounds.sound certStore) :
    ((∃ resp, s.handleSyncRequest dag batchStore certStore order req = some resp) ↔
      (s.lastRound dag req).toNat < 2 ^ 64 - 1) ∧
    ∀ resp, s.handleSyncRequest dag batchStore certStore order req = some resp →
      dag.collectWithin certStore order s.cfg.syncBatchSize.toNat resp.fromRound resp.toRound =
          some resp.certificates ∧
        ∀ c ∈ resp.certificates, resp.fromRound ≤ c.round ∧ c.round ≤ resp.toRound := by
  refine ⟨⟨fun h => h.elim fun _ => ends_of_handleSyncRequest, fun hlast => ?_⟩,
    fun resp hresp => ?_⟩
  · exact ⟨_, handleSyncRequest_eq_some.mpr
      ⟨_, dag.getOrderedCertificates_eq certStore order req.fromRound hlast, rfl⟩⟩
  · have hlast := ends_of_handleSyncRequest hresp
    obtain ⟨certs, hcerts, rfl⟩ := handleSyncRequest_eq_some.mp hresp
    refine ⟨?_, fun c hc => ?_⟩
    · exact (dag.collectWithin_eq certStore order hlast (s.window_le dag req hsize hlast)).trans
        hcerts
    obtain ⟨r, hle, hge, hc⟩ := (Dag.mem_getOrderedCertificates_iff hlast hcerts).mp hc
    rw [hshaped.round_of_listed hsound hc]
    exact ⟨hle, hge⟩

/-- A sync manager of four validators. -/
def idealSync (syncBatchSize : UInt64) : SyncManager :=
  .new { syncBatchSize, initialBackoff := 0 } (idealValidators 4 0)

open DagState (twoRounds)

theorem shaped_twoRounds : twoRounds.dag.Shaped :=
  (DagState.indexed_of_reach DagState.digestsFixSlots_votedRounds
    (DagState.reach_idealDagRun trivial (by decide +kernel))).shaped

theorem sound_twoRounds : TalliesRounds.sound twoRounds.certStore := by
  obtain ⟨log, hreach⟩ := DagState.reach_twoRounds MemoryCertificateStore.sound_new
  exact DagState.tallies_of_reach hreach

section

attribute [local instance] SliceSort.stable

/-- One round at a time, asked for more. -/
theorem handleSyncRequest_bounded_one :
    ∃ resp, (idealSync 1).handleSyncRequest twoRounds.dag MemoryBatchStore.new
        twoRounds.certStore .listed { fromRound := 1, toRound := 5, requester := 0 } =
          some resp ∧
      twoRounds.dag.collectWithin twoRounds.certStore .listed 1 resp.fromRound
        resp.toRound = some resp.certificates := by
  have hbounded := (idealSync 1).handleSyncRequest_bounded twoRounds.dag MemoryBatchStore.new
    twoRounds.certStore .listed { fromRound := 1, toRound := 5, requester := 0 }
    (by decide) shaped_twoRounds sound_twoRounds
  obtain ⟨resp, hresp⟩ := hbounded.1.mpr (by decide +kernel)
  exact ⟨resp, hresp, (hbounded.2 resp hresp).1⟩

/-- A window that ends in the last round is not left on any fuel. -/
theorem orderedLoop_of_lastRound (certStore : CS) (order : IterOrder Certificate)
    (req : SyncRequest) (hlast : s.lastRound dag req = 18446744073709551615) (fuel : Nat) :
    dag.orderedLoop certStore order (s.lastRound dag req) fuel req.fromRound [] = none := by
  refine dag.orderedLoop_last certStore order ?_ fuel req.fromRound []
  rw [hlast]
  decide

/-- Two requests at a DAG with nothing in it that the answer never comes to: for everything,
and for what is next to the last round of all. -/
theorem handleSyncRequest_never_ends :
    ((idealSync 100).lastRound DagState.idealDag.dag
        { fromRound := 0, toRound := 18446744073709551615, requester := 0 } =
          18446744073709551615 ∧
      ∀ fuel, DagState.idealDag.dag.orderedLoop DagState.idealDag.certStore .listed
        ((idealSync 100).lastRound DagState.idealDag.dag
          { fromRound := 0, toRound := 18446744073709551615, requester := 0 })
        fuel 0 [] = none) ∧
    ((idealSync 100).lastRound DagState.idealDag.dag
        { fromRound := 18446744073709551516, toRound := 0, requester := 0 } =
          18446744073709551615 ∧
      ∀ fuel, DagState.idealDag.dag.orderedLoop DagState.idealDag.certStore .listed
        ((idealSync 100).lastRound DagState.idealDag.dag
          { fromRound := 18446744073709551516, toRound := 0, requester := 0 })
        fuel 18446744073709551516 [] = none) := by
  have hall : (idealSync 100).lastRound DagState.idealDag.dag
      { fromRound := 0, toRound := 18446744073709551615, requester := 0 } =
        18446744073709551615 := by decide +kernel
  have hnext : (idealSync 100).lastRound DagState.idealDag.dag
      { fromRound := 18446744073709551516, toRound := 0, requester := 0 } =
        18446744073709551615 := by decide +kernel
  exact ⟨⟨hall, orderedLoop_of_lastRound _ _ _ _ _ hall⟩,
    ⟨hnext, orderedLoop_of_lastRound _ _ _ _ _ hnext⟩⟩

end

/-! ## Progress

Whether a probe brings anything is a matter of the first rounds from its start on. -/

theorem lastRound_probe (fromRound : UInt64) (requester : UInt16) (hsize : 1 ≤ s.cfg.syncBatchSize)
    (hfrom : fromRound ≤ dag.highestRound) (hlast : dag.highestRound.toNat < 2 ^ 64 - 1) :
    (s.lastRound dag { fromRound, toRound := 0, requester }).toNat =
      min dag.highestRound.toNat (fromRound.toNat + s.cfg.syncBatchSize.toNat - 1) := by
  rw [lastRound_zero _ _ _ rfl]
  simp only [UInt64.le_iff_toNat_le, UInt64.toNat_one] at hsize hfrom
  split
  · next hcut =>
      simp only [UInt64.lt_iff_toNat_lt, UInt64.toNat_add, UInt64.toNat_sub, UInt64.toNat_one]
        at hcut ⊢
      omega
  · next hcut =>
      simp only [UInt64.lt_iff_toNat_lt, UInt64.toNat_add, UInt64.toNat_sub, UInt64.toNat_one]
        at hcut
      omega

/-- A probe from a round on brings a certificate of such a round exactly if its window ends
and one of the rounds in it lists any. For a start up to the highest round these are the
first rounds from there, as many as the batch size and none above the highest. -/
theorem probe_brings_certificate_iff [SliceSort] [TalliesRounds CS] (s : SyncManager) (dag : Dag)
    (batchStore : BS) (certStore : CS) (order : IterOrder Certificate) (fromRound : UInt64)
    (requester : UInt16) (hsize : 1 ≤ s.cfg.syncBatchSize) (hshaped : dag.Shaped)
    (hsound : TalliesRounds.sound certStore) :
    let last := s.lastRound dag { fromRound, toRound := 0, requester }
    ((∃ resp, s.handleSyncRequest dag batchStore certStore order
          { fromRound, toRound := 0, requester } = some resp ∧
        ∃ c ∈ resp.certificates, fromRound ≤ c.round) ↔
      last.toNat < 2 ^ 64 - 1 ∧ ∃ r, fromRound ≤ r ∧ r ≤ last ∧
        dag.getCertificatesForRound certStore order r ≠ []) ∧
    (fromRound ≤ dag.highestRound → dag.highestRound.toNat < 2 ^ 64 - 1 →
      last.toNat =
        min dag.highestRound.toNat (fromRound.toNat + s.cfg.syncBatchSize.toNat - 1)) := by
  intro last
  refine ⟨⟨?_, ?_⟩, s.lastRound_probe dag fromRound requester hsize⟩
  · rintro ⟨resp, hresp, c, hc, -⟩
    have hends := ends_of_handleSyncRequest hresp
    obtain ⟨certs, hcerts, rfl⟩ := handleSyncRequest_eq_some.mp hresp
    obtain ⟨r, hle, hto, hc⟩ := (Dag.mem_getOrderedCertificates_iff hends hcerts).mp hc
    exact ⟨hends, r, hle, hto, List.ne_nil_of_mem hc⟩
  · rintro ⟨hends, r, hle, hto, hne⟩
    obtain ⟨c, hc⟩ := List.exists_mem_of_ne_nil _ hne
    have hcerts := dag.getOrderedCertificates_eq certStore order fromRound hends
    refine ⟨_, handleSyncRequest_eq_some.mpr ⟨_, hcerts, rfl⟩, c, ?_, ?_⟩
    · exact (Dag.mem_getOrderedCertificates_iff hends hcerts).mpr ⟨r, hle, hto, hc⟩
    · rw [hshaped.round_of_listed hsound hc]
      exact hle

section

attribute [local instance] SliceSort.stable

theorem probe_brings_certificate_twoRounds :
    ∃ resp, (idealSync 1).handleSyncRequest twoRounds.dag MemoryBatchStore.new
        twoRounds.certStore .listed { fromRound := 1, toRound := 0, requester := 0 } =
          some resp ∧
      ∃ c ∈ resp.certificates, 1 ≤ c.round := by
  obtain ⟨hbrings, -⟩ := (idealSync 1).probe_brings_certificate_iff twoRounds.dag
    MemoryBatchStore.new twoRounds.certStore .listed 1 0 (by decide) shaped_twoRounds
    sound_twoRounds
  exact hbrings.mpr ⟨by decide +kernel, 1, by decide, by decide +kernel, by decide +kernel⟩

/-- A first round and one long after it, the first one collected from memory and from the
store. -/
def collectedRounds : DagState MemoryCertificateStore :=
  let s := (DagState.idealDagRun
    ((votedRound 0 ++ [votedCertificate 1 500 [] (votedRound 0)]).map .addCertificate ++
      [.setCommittedRound 499, .pruneRoundsBefore 450])).1
  { s with certStore := (s.certStore.deleteCertificatesBefore 450).2 }

/-- The responder holds a certificate of round 500, in memory and in the store, and answers
a requester that has nothing with no certificate. -/
theorem probe_brings_nothing :
    collectedRounds.dag.slot 500 1 = some (votedCertificate 1 500 [] (votedRound 0)) ∧
      collectedRounds.certStore.hasCertificate
        (votedCertificate 1 500 [] (votedRound 0)).digest = true ∧
      ((idealSync 100).handleSyncRequest collectedRounds.dag MemoryBatchStore.new
          collectedRounds.certStore .listed { fromRound := 0, toRound := 0, requester := 0 }).map
        (fun resp => (resp.certificates, resp.toRound)) = some ([], 99) := by
  refine ⟨?_, ?_, ?_⟩ <;> decide +kernel

end

end SyncManager

end DagMempool
