import DagMempool.Lib.Codec
import DagMempool.Store.LevelDB
import DagMempool.Types.Ideal

/-!
# An ideal codec

`Cramberry` is a parameter of the stores on disk. Here is one that writes the fields
one after the other, so that these stores can be run.
-/

namespace DagMempool

namespace IdealCodec

def uint8 : Codec UInt8 :=
  .fixed 1 UInt8.toNat UInt8.ofNat UInt8.toNat_lt fun _ => UInt8.ofNat_toNat

def uint16 : Codec UInt16 :=
  .fixed 2 UInt16.toNat UInt16.ofNat UInt16.toNat_lt fun _ => UInt16.ofNat_toNat

def uint64 : Codec UInt64 :=
  .fixed 8 UInt64.toNat UInt64.ofNat UInt64.toNat_lt fun _ => UInt64.ofNat_toNat

def int64 : Codec Int64 := uint64.via Int64.toUInt64 Int64.ofUInt64 fun _ => rfl

def hash : Codec Hash :=
  .fixed 32 BitVec.toNat (BitVec.ofNat 256) (fun h => h.isLt) fun h => by simp

theorem toNat_lt_bytes {n : Nat} (v : BitVec (8 * n)) : v.toNat < 256 ^ n := by
  have hlt := v.isLt
  rw [Nat.pow_mul] at hlt
  exact hlt

def signature : Codec Signature :=
  .fixed 64 BitVec.toNat (BitVec.ofNat 512) (fun s => toNat_lt_bytes (n := 64) s) fun s => by simp

def batch : Codec Batch :=
  (uint16.pair (uint16.pair (uint64.pair (uint8.list.list.pair (hash.pair int64))))).via
    (fun b => (b.workerID, b.validatorID, b.round, b.transactions, b.digest, b.timestamp))
    (fun f => ⟨f.1, f.2.1, f.2.2.1, f.2.2.2.1, f.2.2.2.2.1, f.2.2.2.2.2⟩) fun _ => rfl

def batchDigest : Codec BatchDigest :=
  (hash.pair (uint16.pair uint16)).via (fun d => (d.digest, d.workerID, d.validatorID))
    (fun f => ⟨f.1, f.2.1, f.2.2⟩) fun _ => rfl

def certificateRef : Codec CertificateRef :=
  (hash.pair uint64).via (fun r => (r.digest, r.round)) (fun f => ⟨f.1, f.2⟩) fun _ => rfl

def header : Codec Header :=
  (uint16.pair (uint64.pair (uint64.pair (batchDigest.list.pair
    (certificateRef.list.pair (int64.pair (hash.pair signature))))))).via
    (fun h => (h.author, h.round, h.epoch, h.batchRefs, h.parents, h.timestamp, h.digest,
      h.signature))
    (fun f => ⟨f.1, f.2.1, f.2.2.1, f.2.2.2.1, f.2.2.2.2.1, f.2.2.2.2.2.1, f.2.2.2.2.2.2.1,
      f.2.2.2.2.2.2.2⟩) fun _ => rfl

def vote : Codec Vote :=
  (hash.pair (uint16.pair signature)).via (fun v => (v.headerDigest, v.validator, v.signature))
    (fun f => ⟨f.1, f.2.1, f.2.2⟩) fun _ => rfl

def certificate : Codec Certificate :=
  (header.pair (vote.list.pair uint64.list)).via (fun c => (c.header, c.votes, c.signerMask))
    (fun f => ⟨f.1, f.2.1, f.2.2⟩) fun _ => rfl

end IdealCodec

/-- A codec as the one of the stores: it reads what it has written, with nothing left
over. -/
@[reducible] def Cramberry.ofCodec {α : Type} (c : Codec α) : Cramberry α where
  marshal a := .ok (c.encode a)
  unmarshal data := match c.decode data with
    | some (a, []) => .ok a
    | _ => .error (.other "malformed data")
  undone a := by
    have hread := c.decode_encode a []
    rw [List.append_nil] at hread
    exact ⟨c.encode a, rfl, by rw [hread]⟩

@[reducible] def idealBatchCramberry : Cramberry Batch := .ofCodec IdealCodec.batch

@[reducible] def idealCertificateCramberry : Cramberry Certificate :=
  .ofCodec IdealCodec.certificate

end DagMempool
