import DagMempool.Proofs.AckGate

/-!
# Epochs

Validators change with epochs, and a header says which epoch it is of. The primary keeps
the epoch apart from the validators: it writes its own into the headers it makes and
asks for it in the headers it receives, while signatures and quorums go by the set. The
set is replaced by every update. The epoch has a setter that nothing calls, so it is
`0` from the start on, whatever epoch the validators are of.
-/

namespace DagMempool

namespace Looseberry

variable [Crypto] [SliceSort] {BS CS TI : Type}
variable [BatchStore BS] [CertificateStore CS] [TxIndex TI]

/-- The primary has the node's validators, and has never left epoch `0`. -/
structure StaysInEpoch (l : Looseberry BS CS TI) : Prop where
  validatorSet : l.primary.validatorSet = l.validatorSet
  epoch : l.primary.epoch = 0

theorem step_staysInEpoch {l : Looseberry BS CS TI} (h : l.StaysInEpoch) (ev : Event × Env) :
    (l.step ev).1.StaysInEpoch := by
  obtain ⟨batchDigests, ⟨_, _, _, heq⟩, -⟩ := l.step_primary ev
  refine ⟨?_, by rw [heq]; exact h.epoch⟩
  rw [heq]
  rcases validators_cases ev with ⟨vs, env, rfl⟩ | hvs
  · rfl
  · rw [(l.step_validatorSet ev).2 hvs, ← h.validatorSet]
    exact validatorsAfter_of_ne hvs

/-- In every run the headers a primary makes, and those it accepts, are of the epoch it
keeps. This is the epoch of the validators it goes by exactly if theirs is `0`. -/
theorem epoch_agreement {l : Looseberry BS CS TI} {log : List Output}
    (h : Reach (fun _ => True) (fun _ _ _ => True) l log) :
    (∀ env header, .broadcastHeader header ∈ (l.step (.headerTick, env)).2 →
      header.epoch = l.primary.epoch) ∧
    (∀ header, l.primary.validateHeader l.certStore header = .ok () →
      header.epoch = l.primary.epoch) ∧
    l.primary.validatorSet = l.validatorSet ∧
    (l.primary.epoch = l.primary.validatorSet.epoch ↔ l.validatorSet.epoch = 0) := by
  have hstays : l.StaysInEpoch := by
    refine h.invariant (I := fun l _ => l.StaysInEpoch) (fun l hl => ?_)
      fun l _ ev hl _ => step_staysInEpoch hl ev
    obtain ⟨⟨cfg, vs, batchStore, certStore, txIndex, now, rfl⟩, -⟩ := hl
    exact ⟨rfl, rfl⟩
  refine ⟨fun env header hheader => ?_, fun header hok => ?_, hstays.validatorSet, ?_⟩
  · obtain ⟨rest, digests, hbuilt⟩ := Primary.tryCreateHeader_eq_some (mem_headerTick.mp hheader)
    obtain ⟨sig, -, rfl⟩ := Primary.buildHeader_eq_some hbuilt
    rfl
  · exact (Primary.validateHeader_eq_ok.mp hok).2.2.1
  · rw [hstays.epoch, hstays.validatorSet]
    exact eq_comm

end Looseberry

section

open IdealScheme

def updated (n : Nat) (epoch : UInt64) : IdealNode × List Output :=
  idealExec 0 10 [.updateValidatorSet (idealValidators n epoch)]

theorem reach_updated (n : Nat) (epoch : UInt64) :
    Looseberry.Reach (fun _ => True) (fun _ _ _ => True) (updated n epoch).1
      (updated n epoch).2 :=
  reach_idealExec 0 10 _ trivial (.of_forall (fun _ _ _ => trivial) _ _ _)

theorem epoch_agreement_ideal :
    (updated 7 0).1.primary.epoch = (updated 7 0).1.primary.validatorSet.epoch ∧
      (updated 7 0).1.primary.validatorSet.quorum = 5 := by
  obtain ⟨-, -, -, hagree⟩ := Looseberry.epoch_agreement (reach_updated 7 0)
  exact ⟨hagree.mpr rfl, by decide +kernel⟩

def headerOfEpoch (epoch : UInt64) : Header :=
  let header := Header.new 1 0 epoch [] [] 0
  { header with signature := BitVec.ofNat 256 1 ++ header.digest }

/-- With validators of epoch `1` the primary makes headers of epoch `0`, accepts those of
others, and refuses a header of epoch `1`. -/
theorem epoch_disagreement :
    (updated 4 1).1.primary.validatorSet.epoch = 1 ∧
    (∃ header, .broadcastHeader header ∈
      ((updated 4 1).1.step (.headerTick, idealEnv 9)).2 ∧ header.epoch = 0) ∧
    (updated 4 1).1.primary.validateHeader (updated 4 1).1.certStore (headerOfEpoch 0) =
      .ok () ∧
    (updated 4 1).1.primary.validateHeader (updated 4 1).1.certStore (headerOfEpoch 1) =
      .error .epochMismatch := by
  refine ⟨by decide +kernel, ?_, by decide +kernel, by decide +kernel⟩
  have hcreated : ((updated 4 1).1.primary.tryCreateHeader (updated 4 1).1.certStore
      Looseberry.onCertificateFormed
      { dag := (updated 4 1).1.dag, flow := (updated 4 1).1.flow, certs := [] }
      (updated 4 1).1.pool.hasBatchAckQuorum .listed 9).1.map (·.epoch) = some 0 := by
    decide +kernel
  obtain ⟨header, hheader, hepoch⟩ := Option.map_eq_some_iff.mp hcreated
  exact ⟨header, Looseberry.mem_headerTick.mpr hheader, hepoch⟩

end

end DagMempool
