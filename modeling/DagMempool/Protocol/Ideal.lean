import DagMempool.Protocol.World
import DagMempool.Store.MemoryCertificate
import DagMempool.Types.Ideal

/-!
# Four ideal validators

A world that can be run: four validators over the ideal signature scheme, with
stores in memory and everything configured alike.
-/

namespace DagMempool

abbrev IdealWorld := @World MemoryCertificateStore idealCrypto

/-- The indices of all four. -/
def idealIndices : Finset UInt16 := {0, 1, 2, 3}

/-- A tick of a validator's header loop. -/
def idealTick (i : UInt16) (now : Int) : WorldEvent := .tick i (fun _ => true) .listed now

section

open IdealScheme

def idealWorld : IdealWorld where
  primary i :=
    { Primary.new i (idealSigner i)
        { maxBatchesPerHeader := 10, voteTimeout := 1000, maxRoundGap := 10
          allowEmptyHeaders := true }
        (idealValidators 4 0) with
      running := true }
  certStore _ := .new

theorem started_idealWorld : idealWorld.Started (idealValidators 4 0) :=
  fun _ => ⟨_, _, rfl⟩

/-- The world, and what was signed, after some events. -/
def idealWorldExec (events : List WorldEvent) : IdealWorld × List Signed :=
  Run.exec World.step idealWorld [] events

/-- Events that meet a guard as they happen are a run. -/
theorem reach_idealWorldExec {ok : IdealWorld → List Signed → WorldEvent → Prop}
    (events : List WorldEvent) (hok : Run.AllOk World.step ok idealWorld [] events) :
    Run.Reach (World.Started (idealValidators 4 0)) World.step ok
      (idealWorldExec events).1 (idealWorldExec events).2 :=
  Run.Reach.of_exec started_idealWorld hok

end

end DagMempool
