import DagMempool.Proofs.DagRuns

/-!
# An addition that fails

`AddCertificate` makes the round's record before it checks anything and writes memory
before it saves, and undoes neither. So an error leaves the DAG as it was in one case
only: the record was there, and the checks refused the certificate. Otherwise the record
is new, and a round in memory answers by itself from then on, with nothing where the store
had certificates; or the certificate was admitted, and stays although the save failed.
-/

namespace DagMempool

namespace Dag

/-- Every method that reads a DAG answers the same before and after. -/
structure Unchanged {CS : Type} [CertificateStore CS] (d : Dag) (certStore : CS) (d' : Dag)
    (certStore' : CS) : Prop where
  getRound : ∀ r, d'.getRound r = d.getRound r
  roundCount : d'.roundCount = d.roundCount
  getCertificate : ∀ digest, d'.getCertificate certStore' digest = d.getCertificate certStore digest
  hasCertificate : ∀ digest, d'.hasCertificate certStore' digest = d.hasCertificate certStore digest
  getCertificatesForRound : ∀ order r,
    d'.getCertificatesForRound certStore' order r = d.getCertificatesForRound certStore order r
  getCertificateForValidator : ∀ r a,
    d'.getCertificateForValidator certStore' r a = d.getCertificateForValidator certStore r a
  getOrderedCertificates : ∀ [SliceSort] order fromRound toRound,
    d'.getOrderedCertificates certStore' order fromRound toRound =
      d.getOrderedCertificates certStore order fromRound toRound
  highestRound : d'.highestRound = d.highestRound

variable {CS : Type} [CertificateStore CS] {d : Dag} {certStore : CS} {cert : Certificate}

theorem Unchanged.refl (d : Dag) (certStore : CS) : d.Unchanged certStore d certStore :=
  ⟨fun _ => rfl, rfl, fun _ => rfl, fun _ => rfl, fun _ _ => rfl, fun _ _ => rfl,
    fun _ _ _ => rfl, rfl⟩

theorem ensureRound_of_has (h : d.rounds.has cert.round = true) :
    d.ensureRound cert.round = d := by
  obtain ⟨rd, hrd⟩ := GoMap.has_iff.mp h
  rw [ensureRound, hrd]

theorem has_round_addCertificate (d : Dag) (certStore : CS) (cert : Certificate) :
    (d.addCertificate certStore cert).2.1.rounds.has cert.round = true := by
  have hensure : (d.ensureRound cert.round).rounds.has cert.round = true := by
    unfold ensureRound
    split
    · next rd hrd => exact GoMap.has_iff.mpr ⟨rd, hrd⟩
    · exact GoMap.has_set.mpr (.inl rfl)
  rcases addCertificate_cases d certStore cert with ⟨err, heq, -⟩ | ⟨-, heq⟩
  · rw [heq]
    exact hensure
  · rw [heq]
    exact GoMap.has_set.mpr (.inl rfl)

theorem getCertificateForValidator_of_has {r : UInt64} (h : d.rounds.has r = true) (certStore : CS)
    (a : UInt16) : d.getCertificateForValidator certStore r a = d.slot r a := by
  obtain ⟨rd, hrd⟩ := GoMap.has_iff.mp h
  rw [getCertificateForValidator, slot, hrd]

theorem Unchanged.has_round
    (h : d.Unchanged certStore (d.addCertificate certStore cert).2.1
      (d.addCertificate certStore cert).2.2) : d.rounds.has cert.round = true := by
  have hafter := has_round_addCertificate d certStore cert
  have hget : (d.addCertificate certStore cert).2.1.rounds.get cert.round =
      d.rounds.get cert.round := h.getRound cert.round
  rw [GoMap.has, hget] at hafter
  exact hafter

/-- An addition leaves every answer as it was exactly if it returns an error, the round was
in memory, and it was the checks that refused the certificate. -/
theorem addCertificate_unchanged_iff (d : Dag) (certStore : CS) (cert : Certificate) :
    d.Unchanged certStore (d.addCertificate certStore cert).2.1
        (d.addCertificate certStore cert).2.2 ↔
      (∃ err, (d.addCertificate certStore cert).1 = .error err) ∧
        d.rounds.has cert.round = true ∧ ¬ d.Admits certStore cert := by
  rcases addCertificate_cases d certStore cert with ⟨err, heq, hwhy⟩ | ⟨hadm, heq⟩
  · have hnot : ¬ d.Admits certStore cert := by
      intro hadm
      rcases hwhy with ⟨-, htaken⟩ | ⟨-, -, hpos, ref, href, hno⟩
      · exact htaken hadm.free
      · rw [hadm.parents hpos ref href] at hno
        cases hno
    constructor
    · intro hsame
      exact ⟨⟨err, by rw [heq]⟩, hsame.has_round, hnot⟩
    · rintro ⟨-, hround, -⟩
      rw [heq, ensureRound_of_has hround]
      exact .refl d certStore
  · refine ⟨fun hsame => ?_, fun h => absurd hadm h.2.2⟩
    -- An admitted certificate is in its slot, and no round with that slot free was there.
    have hslot := hsame.getCertificateForValidator cert.round cert.author
    rw [getCertificateForValidator_of_has (has_round_addCertificate d certStore cert),
      getCertificateForValidator_of_has hsame.has_round, hadm.free, heq,
      slot_insertCertificate, if_pos ⟨rfl, rfl⟩] at hslot
    cases hslot

/-- Two rounds, the second one pruned from memory and still in the store. -/
def prunedSecondRound : DagState MemoryCertificateStore :=
  (DagState.idealDagRun
    ((votedRound 0 ++ votedRound 1).map .addCertificate ++ [.pruneRound 1])).1

/-- A certificate of that round whose parent nobody has. -/
def parentlessCertificate : Certificate :=
  votedCertificate 0 1 [] [votedCertificate 0 0 [⟨1, 1, 1⟩] []]

/-- A DAG in memory over a store that was closed. -/
def closedStore : MemoryCertificateStore := { MemoryCertificateStore.new with closed := true }

/-- A refused certificate hides the three the store has for its round and adds to the
count of rounds; one that could not be saved is there, and moves the highest round. -/
theorem addCertificate_error_leaves_traces :
    ((prunedSecondRound.dag.addCertificate prunedSecondRound.certStore
        parentlessCertificate).1 = .error .missingParents ∧
      (prunedSecondRound.dag.getCertificatesForRound prunedSecondRound.certStore
        .listed 1).length = 3 ∧
      (prunedSecondRound.dag.addCertificate prunedSecondRound.certStore
        parentlessCertificate).2.1.getCertificatesForRound
          (prunedSecondRound.dag.addCertificate prunedSecondRound.certStore
            parentlessCertificate).2.2 .listed 1 = [] ∧
      prunedSecondRound.dag.roundCount = 1 ∧
      (prunedSecondRound.dag.addCertificate prunedSecondRound.certStore
        parentlessCertificate).2.1.roundCount = 2) ∧
    ((DagState.idealDag.dag.addCertificate closedStore (votedCertificate 1 5 [] [])).1 =
        .error .notRunning ∧
      DagState.idealDag.dag.hasCertificate closedStore
        (votedCertificate 1 5 [] []).digest = false ∧
      (DagState.idealDag.dag.addCertificate closedStore
        (votedCertificate 1 5 [] [])).2.1.hasCertificate closedStore
          (votedCertificate 1 5 [] []).digest = true ∧
      DagState.idealDag.dag.highestRound = 0 ∧
      (DagState.idealDag.dag.addCertificate closedStore
        (votedCertificate 1 5 [] [])).2.1.highestRound = 5) := by
  refine ⟨⟨?_, ?_, ?_, ?_, ?_⟩, ⟨?_, ?_, ?_, ?_, ?_⟩⟩ <;> decide +kernel

end Dag

end DagMempool
