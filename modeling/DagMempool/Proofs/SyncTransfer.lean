import DagMempool.Network.Polling
import DagMempool.Proofs.SyncWindow

/-!
# A response is taken whole

A response lists its certificates round by round. Parents are of lower rounds, so whoever
takes the certificates in this order has met the parents of each before it, or had them to
begin with, and the check for parents passes one certificate after the other. That is all
there is to it, and it is the same whether the certificates are put into the DAG directly
or go the way of broadcast ones, with the store written first and the orphans replayed in
between: `Delivered` is what the two ways have in common.

What can be in the way is another certificate in the slot. The requester may have none,
in a round or among its orphans, and the responder may list none: from memory it never
does, but a round that is only in its store can have two of one author.
-/

namespace DagMempool

namespace Dag

variable {CS : Type} [CertificateStore CS] {d : Dag} {certStore : CS}

/-- What a round in memory holds is known by its digest. -/
def Knows (d : Dag) (certStore : CS) : Prop :=
  ∀ r a c, d.slot r a = some c → d.hasCertificate certStore c.digest = true

/-- The certificate's slot has the certificate, and its digest is known. -/
structure Contains (d : Dag) (certStore : CS) (c : Certificate) : Prop where
  slot : ∃ x, d.slot c.round c.author = some x ∧ x.digest = c.digest
  known : d.hasCertificate certStore c.digest = true

theorem Indexed.knows {S : Certificate → Prop} (h : d.Indexed S) : d.Knows certStore := by
  intro r a c hc
  obtain ⟨rfl, rfl⟩ := h.shaped r a c hc
  rw [hasCertificate, Bool.or_eq_true]
  exact .inl (GoMap.has_iff.mpr ⟨c, (h.index c.digest c).mpr ⟨hc, rfl⟩⟩)

theorem Knows.contains (h : d.Knows certStore) {c x : Certificate}
    (hslot : d.slot c.round c.author = some x) (hdigest : x.digest = c.digest) :
    d.Contains certStore c :=
  ⟨⟨x, hslot, hdigest⟩, hdigest ▸ h _ _ x hslot⟩

variable [KeepsCertificates CS]

theorem Knows.addCertificate (h : d.Knows certStore) (cert : Certificate) :
    (d.addCertificate certStore cert).2.1.Knows (d.addCertificate certStore cert).2.2 := by
  intro r a c hc
  rcases slot_addCertificate hc with hold | ⟨rfl, -, -, hadm⟩
  · exact hasCertificate_added (h r a c hold) cert
  · rcases d.addCertificate_cases certStore c with ⟨err, heq, -⟩ | ⟨-, heq⟩
    · rw [heq, slot_ensureRound] at hc
      exact hasCertificate_added (h r a c hc) c
    · rw [heq, hasCertificate, certIndex_insertCertificate, Bool.or_eq_true, GoMap.has_set]
      exact .inl (.inl rfl)

end Dag

/-! ## Certificates taken one after the other

Each certificate is tried in its turn. It finds its parents in the DAG if they were there or came
before it, and its slot is free unless it is there already. -/

namespace Written

variable {CS : Type} [CertificateStore CS] {P : Certificate → Prop} {s s' : CertState CS}

theorem slot_of_slot (h : Written P s s') {r : UInt64} {a : UInt16} {c : Certificate}
    (hc : s.dag.slot r a = some c) : s'.dag.slot r a = some c :=
  h.dag_invariant (I := fun d => d.slot r a = some c)
    (fun _ certStore c' _ hd => Dag.slot_addCertificate_of_slot hd certStore c') hc

theorem indexed (h : Written P s s') (hP : DigestsFixSlots P) (hs : s.dag.Indexed P) :
    s'.dag.Indexed P :=
  h.dag_invariant (I := (·.Indexed P))
    (fun _ certStore _ hc hd => hd.addCertificate hP certStore hc) hs

variable [KeepsCertificates CS]

theorem hasCertificate (h : Written P s s') {digest : Hash}
    (hknown : s.dag.hasCertificate s.certStore digest = true) :
    s'.dag.hasCertificate s'.certStore digest = true := by
  induction h with
  | refl => exact hknown
  | save _ _ ih => exact Dag.hasCertificate_saved ih _
  | add _ _ ih => exact Dag.hasCertificate_added ih _
  | round _ _ ih => exact ih

theorem knows (h : Written P s s') (hs : s.dag.Knows s.certStore) :
    s'.dag.Knows s'.certStore := by
  induction h with
  | refl => exact hs
  | save _ _ ih => exact fun r a c hc => Dag.hasCertificate_saved (ih r a c hc) _
  | add _ _ ih => exact ih.addCertificate _
  | round _ _ ih => exact ih

end Written

/-- Certificates were taken in this order: each was added if it could be, and nothing was
written meanwhile but certificates with the property. -/
inductive Delivered {CS : Type} [CertificateStore CS] (Q : Header → Prop) :
    CertState CS → List Certificate → CertState CS → Prop
  | nil (s : CertState CS) : Delivered Q s [] s
  | cons {s s' s'' : CertState CS} {cert : Certificate} {certs : List Certificate}
      (written : Written (fun c => Q c.header) s s')
      (added : s.dag.Admits s.certStore cert →
        s'.dag.slot cert.round cert.author = some cert)
      (rest : Delivered Q s' certs s'') : Delivered Q s (cert :: certs) s''

namespace Delivered

variable {CS : Type} [CertificateStore CS] {Q : Header → Prop} {s s' : CertState CS}
  {certs : List Certificate}

theorem written (h : Delivered Q s certs s') : Written (fun c => Q c.header) s s' := by
  induction h with
  | nil => exact .refl _
  | cons hw _ _ ih => exact hw.trans ih

theorem contains [KeepsCertificates CS] (h : Delivered Q s certs s') {U : Certificate → Prop}
    (hknows : s.dag.Knows s.certStore)
    (hslots : ∀ c ∈ certs, U c → ∀ x, s.dag.slot c.round c.author = some x →
      x.digest = c.digest)
    (hQ : ∀ c ∈ certs, U c → ∀ x, Q x → x.round = c.round → x.author = c.author →
      x.digest = c.digest)
    (hparents : ∀ before c after, certs = before ++ c :: after → U c →
      ∀ ref ∈ c.header.parents, s.dag.hasCertificate s.certStore ref.digest = true ∨
        ∃ p ∈ before, U p ∧ p.digest = ref.digest) :
    ∀ c ∈ certs, U c → s'.dag.Contains s'.certStore c := by
  induction h with
  | nil =>
    intro c hc
    cases hc
  | @cons s s' s'' cert certs hw hadded hrest ih =>
    have hknows' := hw.knows hknows
    have hslots' : ∀ c ∈ cert :: certs, U c → ∀ x, s'.dag.slot c.round c.author = some x →
        x.digest = c.digest := by
      intro c hc hU x hx
      rcases hw.slot hx with hold | ⟨hQx, hround, hauthor⟩
      · exact hslots c hc hU x hold
      · exact hQ c hc hU x.header hQx hround hauthor
    -- The certificate that is taken first: its slot is free, and then it is added, or not.
    have hfirst : U cert → ∃ x, s'.dag.slot cert.round cert.author = some x := by
      intro hU
      cases hslot : s.dag.slot cert.round cert.author with
      | some x => exact ⟨x, hw.slot_of_slot hslot⟩
      | none =>
        refine ⟨cert, hadded ⟨hslot, fun _ ref href => ?_⟩⟩
        rcases hparents [] cert certs rfl hU ref href with hknown | ⟨p, hp, -⟩
        · exact hknown
        · cases hp
    have hcert : U cert → s'.dag.Contains s'.certStore cert := by
      intro hU
      obtain ⟨x, hx⟩ := hfirst hU
      exact hknows'.contains hx (hslots' cert List.mem_cons_self hU x hx)
    intro c hc hU
    rcases List.mem_cons.mp hc with rfl | hc
    · obtain ⟨x, hx, hdigest⟩ := (hcert hU).slot
      exact (hrest.written.knows hknows').contains (hrest.written.slot_of_slot hx) hdigest
    · refine ih hknows' (fun c hc => hslots' c (List.mem_cons_of_mem _ hc))
        (fun c hc => hQ c (List.mem_cons_of_mem _ hc))
        (fun before c after heq hU ref href => ?_) c hc hU
      rcases hparents (cert :: before) c after (by rw [heq]; rfl) hU ref href with
        hknown | ⟨p, hp, hUp, hdigest⟩
      · exact .inl (hw.hasCertificate hknown)
      · rcases List.mem_cons.mp hp with rfl | hp
        · exact .inl (hdigest ▸ (hcert hUp).known)
        · exact .inr ⟨p, hp, hUp, hdigest⟩

theorem addAll (flow : FlowController) (dag : Dag) (certStore : CS)
    (hcerts : ∀ c ∈ certs, Q c.header) :
    Delivered Q { dag, certStore, flow } certs
      { dag := (SyncManager.addAll dag certStore certs).1
        certStore := (SyncManager.addAll dag certStore certs).2, flow } := by
  induction certs generalizing dag certStore with
  | nil => exact .nil _
  | cons cert certs ih =>
    refine .cons (.add (.refl _) (hcerts cert List.mem_cons_self)) (fun hadm => hadm.slot) ?_
    exact ih _ _ fun c hc => hcerts c (List.mem_cons_of_mem _ hc)

end Delivered

namespace Looseberry

variable [Crypto] {BS CS TI : Type} [CertificateStore CS] {Q : Header → Prop}

theorem handleCertificateMessage_adds [KeepsCertificates CS] {l : Looseberry BS CS TI}
    {cert : Certificate} (h : l.dag.Admits l.certStore cert) (env : Env) :
    (l.handleCertificateMessage env cert).dag.slot cert.round cert.author = some cert := by
  obtain ⟨-, hstore⟩ := l.primary.handleCertificate_eq l.certStore cert
  have hadmits : l.dag.Admits (l.primary.handleCertificate l.certStore cert).2.2 cert := by
    rcases hstore with hsame | hsaved
    · rw [hsame]
      exact h
    · rw [hsaved]
      exact h.saved cert
  have hstart : Replayed (fun _ => True) (l.admitCertificate cert).2.certState
      (l.admitCertificate cert).2 := ⟨fun _ _ => trivial, .refl _⟩
  have hsettled : Replayed (fun _ => True) (l.admitCertificate cert).2.certState
      ((l.admitCertificate cert).2.settleOrphans env cert (l.admitCertificate cert).1) :=
    settleOrphans_replayed hstart trivial env _
  exact hsettled.written.slot_of_slot hadmits.slot

/-- The way of a broadcast certificate. -/
theorem delivered_handleCertificateMessage [KeepsCertificates CS] (env : Env)
    {certs : List Certificate} (l : Looseberry BS CS TI)
    (horphans : ∀ c ∈ l.orphanCerts.values, Q c.header) (hcerts : ∀ c ∈ certs, Q c.header) :
    Delivered Q l.certState certs
      (certs.foldl (fun l cert => l.handleCertificateMessage env cert) l).certState := by
  induction certs generalizing l with
  | nil => exact .nil _
  | cons cert certs ih =>
    have hone := handleCertificateMessage_replayed (s := l.certState) ⟨horphans, .refl _⟩
      (hcerts cert List.mem_cons_self) env
    refine .cons hone.written (fun hadm => handleCertificateMessage_adds hadm env) ?_
    exact ih _ hone.orphans fun c hc => hcerts c (List.mem_cons_of_mem _ hc)

end Looseberry

/-! ## What is sent

The certificates of the window in the order of their rounds, with the batches of theirs that are
stored. -/

/-- No certificate among these is another one of the same round and author. -/
def Certificate.Sole (certs : List Certificate) (c : Certificate) : Prop :=
  ∀ c' ∈ certs, c'.round = c.round → c'.author = c.author → c'.digest = c.digest

namespace Dag

variable [SliceSort] {CS : Type} [CertificateStore CS] {d : Dag} {certStore : CS}
  {order : IterOrder Certificate} {fromRound toRound : UInt64} {certs : List Certificate}

theorem pairwise_getOrderedCertificates (hlast : toRound.toNat < 2 ^ 64 - 1)
    (h : d.getOrderedCertificates certStore order fromRound toRound = some certs)
    (hown : ∀ r, ∀ c ∈ d.getCertificatesForRound certStore order r, c.round = r) :
    certs.Pairwise fun a b => a.round ≤ b.round := by
  have hround : ∀ {r c}, c ∈ d.sortedRound certStore order r → c.round = r :=
    fun hc => hown _ _ (SliceSort.mem_sortSlice.mp hc)
  rw [d.getOrderedCertificates_eq certStore order fromRound hlast] at h
  cases h
  rw [List.pairwise_flatMap]
  refine ⟨fun r _ => List.pairwise_of_forall_mem_list fun a ha b hb => ?_, ?_⟩
  · rw [hround ha, hround hb]
    exact UInt64.le_refl r
  · refine (pairwise_roundsFrom _ _).imp fun {r r'} hlt a ha b hb => ?_
    rw [hround ha, hround hb]
    exact UInt64.le_of_lt hlt

variable {c : Certificate}

omit [SliceSort] in
theorem Shaped.listed_of_slot (h : d.Shaped) (certStore : CS) (order : IterOrder Certificate)
    {r : UInt64} {a : UInt16} (hc : d.slot r a = some c) :
    d.rounds.has r = true ∧ c ∈ d.getCertificatesForRound certStore order r := by
  have hhas : d.rounds.has r = true := by
    unfold slot at hc
    split at hc
    · cases hc
    · next rd hrd => exact GoMap.has_iff.mpr ⟨rd, hrd⟩
  exact ⟨hhas, (h.mem_getCertificatesForRound certStore order hhas).mpr
    ⟨mem_certificates.mpr ⟨r, a, hc⟩, (h r a c hc).1⟩⟩

theorem Shaped.sole_of_slot (h : d.Shaped)
    (hown : ∀ r, ∀ c ∈ d.getCertificatesForRound certStore order r, c.round = r)
    (hlast : toRound.toNat < 2 ^ 64 - 1)
    (hcerts : d.getOrderedCertificates certStore order fromRound toRound = some certs)
    {r : UInt64} {a : UInt16} (hc : d.slot r a = some c) (hfrom : fromRound ≤ r)
    (hto : r ≤ toRound) : c ∈ certs ∧ c.Sole certs := by
  obtain ⟨hhas, hlisted⟩ := h.listed_of_slot certStore order hc
  refine ⟨(mem_getOrderedCertificates_iff hlast hcerts).mpr ⟨r, hfrom, hto, hlisted⟩, ?_⟩
  intro c' hc' hround hauthor
  obtain ⟨r', -, -, hlisted'⟩ := (mem_getOrderedCertificates_iff hlast hcerts).mp hc'
  obtain rfl : r' = r := by
    rw [← hown r' c' hlisted', hround, (h r a c hc).1]
  obtain ⟨hmem, -⟩ := (h.mem_getCertificatesForRound certStore order hhas).mp hlisted'
  obtain ⟨r'', a'', hslot⟩ := mem_certificates.mp hmem
  obtain ⟨rfl, rfl⟩ := h r'' a'' c' hslot
  rw [hround, hauthor, (h r' a c hc).1, (h r' a c hc).2, hc] at hslot
  rw [Option.some.inj hslot]

/-- Parents of lower rounds that are in memory come before the certificate, and have no rival
either. -/
theorem Shaped.parents_before (h : d.Shaped)
    (hown : ∀ r, ∀ c ∈ d.getCertificatesForRound certStore order r, c.round = r)
    (hlast : toRound.toNat < 2 ^ 64 - 1)
    (hcerts : d.getOrderedCertificates certStore order fromRound toRound = some certs)
    {K : Hash → Prop} (hparents : ∀ c ∈ certs, ∀ ref ∈ c.header.parents, K ref.digest ∨
      ∃ r a p, d.slot r a = some p ∧ p.digest = ref.digest ∧ fromRound ≤ r ∧ r < c.round)
    {before after : List Certificate} (hsplit : certs = before ++ c :: after)
    {ref : CertificateRef} (href : ref ∈ c.header.parents) :
    K ref.digest ∨ ∃ p ∈ before, p.Sole certs ∧ p.digest = ref.digest := by
  have hc : c ∈ certs := by simp [hsplit]
  refine (hparents c hc ref href).imp_right ?_
  rintro ⟨r, a, p, hp, hdigest, hfrom, hlt⟩
  obtain ⟨r', -, hto, hlisted⟩ := (mem_getOrderedCertificates_iff hlast hcerts).mp hc
  rw [← hown r' c hlisted] at hto
  obtain ⟨hmem, hsole⟩ := h.sole_of_slot hown hlast hcerts hp hfrom
    (UInt64.le_trans (UInt64.le_of_lt hlt) hto)
  refine ⟨p, ?_, hsole, hdigest⟩
  have hsorted := pairwise_getOrderedCertificates hlast hcerts hown
  rw [← (h r a p hp).1] at hlt
  rw [hsplit] at hsorted hmem
  rcases List.mem_append.mp hmem with hbefore | hlater
  · exact hbefore
  · have hle : c.round ≤ p.round := by
      rcases List.mem_cons.mp hlater with rfl | hafter
      · exact UInt64.le_refl _
      · exact (List.pairwise_cons.mp (List.pairwise_append.mp hsorted).2.1).1 p hafter
    exact absurd hlt (UInt64.not_lt.mpr hle)

end Dag

namespace SyncManager

section

variable {BS : Type} [BatchStore BS] {batchStore : BS}

theorem mem_collectBatches {certs : List Certificate} {c : Certificate} (hc : c ∈ certs)
    {ref : BatchDigest} (href : ref ∈ c.header.batchRefs) {b : Batch}
    (hb : BatchStore.getBatch batchStore ref.digest = .ok b) :
    b ∈ collectBatches batchStore certs := by
  refine List.mem_filterMap.mpr ⟨ref.digest, ?_, by rw [hb]; rfl⟩
  exact List.mem_eraseDups.mpr (List.mem_flatMap.mpr ⟨c, hc, List.mem_map.mpr ⟨ref, href, rfl⟩⟩)

theorem hasBatch_saveBatches [ReportsSaves BS] [KeepsBatches BS] {bs : List Batch}
    (h : (saveBatches batchStore bs).1 = .ok ()) :
    (∀ b ∈ bs, BatchStore.hasBatch (saveBatches batchStore bs).2 b.digest = true) ∧
      ∀ d, BatchStore.hasBatch batchStore d = true →
        BatchStore.hasBatch (saveBatches batchStore bs).2 d = true := by
  induction bs generalizing batchStore with
  | nil => exact ⟨fun b hb => absurd hb (by simp), fun d hd => hd⟩
  | cons b bs ih =>
    unfold saveBatches at h ⊢
    dsimp only at h ⊢
    split at h
    · cases h
    · next hsaved =>
        obtain ⟨hall, hkeeps⟩ := ih h
        refine ⟨fun b' hb' => ?_, fun d hd => hkeeps d (KeepsBatches.has_save b hd)⟩
        rcases List.mem_cons.mp hb' with rfl | hb'
        · exact hkeeps _ (ReportsSaves.has_of_ok hsaved)
        · exact hall b' hb'

theorem handleSyncResponse_of_saved [Crypto] {s : SyncManager} {resp : SyncResponse}
    (sender : UInt16) (hsaved : (saveBatches batchStore resp.batches).1 = .ok ())
    (hverify : ∀ c ∈ resp.certificates, c.verify s.validatorSet = .ok ()) :
    (s.handleSyncResponse batchStore resp sender).1 = resp.certificates ∧
      (s.handleSyncResponse batchStore resp sender).2.2 =
        (saveBatches batchStore resp.batches).2 := by
  unfold handleSyncResponse
  dsimp only
  rw [hsaved]
  refine ⟨List.filter_eq_self.mpr fun c hc => decide_eq_true ?_, rfl⟩
  rw [recordPeerHighestRound_validatorSet]
  exact hverify c hc

end

end SyncManager

/-- The header takes no slot from a certificate that has no rival among these. -/
def Header.Spares (certs : List Certificate) (x : Header) : Prop :=
  ∀ c ∈ certs, c.Sole certs → x.round = c.round → x.author = c.author → x.digest = c.digest

theorem Certificate.spares {certs : List Certificate} {c : Certificate} (hc : c ∈ certs) :
    c.header.Spares certs :=
  fun _ _ hsole => hsole c hc

namespace Looseberry

variable [Crypto] {BS CS TI BS' CS' TI' : Type}

section

variable [BatchStore BS] [CertificateStore CS] {R : Looseberry BS CS TI} {resp : SyncResponse}

theorem delivered_handleSyncResponse [KeepsCertificates CS] (env : Env) (sender : UInt16)
    (hsaved : (SyncManager.saveBatches R.batchStore resp.batches).1 = .ok ())
    (hverify : ∀ c ∈ resp.certificates, c.verify R.sync.validatorSet = .ok ())
    (horphans : ∀ x ∈ R.orphanCerts.values, x.header.Spares resp.certificates) :
    Delivered (Header.Spares resp.certificates) R.certState resp.certificates
        (R.handleSyncResponse env resp sender).certState ∧
      (R.handleSyncResponse env resp sender).batchStore =
        (SyncManager.saveBatches R.batchStore resp.batches).2 := by
  obtain ⟨hdelivered, hstore⟩ := SyncManager.handleSyncResponse_of_saved sender hsaved hverify
  have htaken : (R.takeSyncResponse resp sender).1 = resp.certificates := hdelivered
  unfold handleSyncResponse
  dsimp only
  rw [htaken]
  obtain ⟨_, _, _, _, _, heq⟩ := foldl_handleCertificateMessage_eq env resp.certificates
    (R.takeSyncResponse resp sender).2
  refine ⟨?_, ?_⟩
  · exact delivered_handleCertificateMessage env (R.takeSyncResponse resp sender).2 horphans
      fun _ hc => Certificate.spares hc
  · rw [heq]
    exact hstore

theorem delivered_handleSyncResponseDirect (sender : UInt16)
    (hsaved : (SyncManager.saveBatches R.batchStore resp.batches).1 = .ok ())
    (hverify : ∀ c ∈ resp.certificates, c.verify R.sync.validatorSet = .ok ()) :
    let direct := R.sync.handleSyncResponseDirect R.batchStore R.dag R.certStore resp sender
    Delivered (Header.Spares resp.certificates) R.certState resp.certificates
        { R.certState with dag := direct.2.2.1, certStore := direct.2.2.2 } ∧
      direct.2.1 = (SyncManager.saveBatches R.batchStore resp.batches).2 := by
  obtain ⟨hdelivered, hstore⟩ := SyncManager.handleSyncResponse_of_saved sender hsaved hverify
  refine ⟨?_, hstore⟩
  unfold SyncManager.handleSyncResponseDirect
  dsimp only
  rw [hdelivered]
  exact .addAll R.flow R.dag R.certStore fun _ hc => Certificate.spares hc

end

/-! ## In every run

What is assumed of the responder's store holds in every state of every run, and of
the requester's DAG if no two headers it meets have one digest but different slots. -/

section

variable [SliceSort] [BatchStore BS] [CertificateStore CS] [TxIndex TI]

theorem tallies_of_reach [TalliesRounds CS]
    {ok : Looseberry BS CS TI → List Output → Event × Env → Prop} {l : Looseberry BS CS TI}
    {log : List Output} (h : Reach (fun l => TalliesRounds.sound l.certStore) ok l log) :
    TalliesRounds.sound l.certStore :=
  certStore_of_reach (I := TalliesRounds.sound) (fun _ c hs => TalliesRounds.sound_save c hs)
    (fun _ round hs => TalliesRounds.sound_delete round hs) (fun _ h0 => h0) h

theorem indexed_of_reach {init : Looseberry BS CS TI → Prop} {Q : Header → Prop}
    (hQ : DigestsFixSlots fun c => Q c.header) {l : Looseberry BS CS TI} {log : List Output}
    (h : Reach init (fun l _ ev => l.Brings Q ev) l log) :
    l.dag.Indexed fun c => Q c.header := by
  refine (Run.Reach.invariant (I := fun l _ => l.Known Q ∧ l.dag.Indexed fun c => Q c.header)
    (fun l h0 => ?_) (fun l log ev hl hev => ?_) h).2
  · refine ⟨started_known Q h0.1, ?_⟩
    obtain ⟨cfg, vs, batchStore, certStore, txIndex, now, rfl⟩ := h0.1
    exact Dag.indexed_new _
  · cases hcollect : l.collecting ev.1 with
    | none =>
      obtain ⟨hknown, hwritten⟩ := step_written hl.1 hev hcollect
      exact ⟨hknown, hwritten.indexed hQ hl.2⟩
    | some m =>
      refine ⟨step_known_of_collecting hcollect hl.1, ?_⟩
      exact step_dag_of_collecting (I := Dag.Indexed fun c => Q c.header)
        (fun d round hd => hd.setCommittedRound round)
        (fun d round hd => hd.pruneRoundsBefore hQ round) hcollect hl.2

end

/-- A response is taken whole, through the callback or directly. The requester then has every
certificate of the window that the responder has in memory, and the batches they refer to
that the responder has; and of what the responder lists from its store, everything that has
no rival for its slot. -/
theorem sync_transfer_complete [SliceSort] [BatchStore BS] [CertificateStore CS]
    [BatchStore BS'] [CertificateStore CS'] [TalliesRounds CS'] [KeepsCertificates CS]
    [ReportsSaves BS] [KeepsBatches BS] (P : Looseberry BS' CS' TI') (R : Looseberry BS CS TI)
    (order : IterOrder Certificate) (req : SyncRequest) (resp : SyncResponse) (env : Env)
    (sender : UInt16)
    (hresp : P.sync.handleSyncRequest P.dag P.batchStore P.certStore order req = some resp)
    (hshaped : P.dag.Shaped) (hsound : TalliesRounds.sound P.certStore)
    (hverify : ∀ c ∈ resp.certificates, c.verify R.sync.validatorSet = .ok ())
    (hparents : ∀ c ∈ resp.certificates, ∀ ref ∈ c.header.parents,
      R.dag.hasCertificate R.certStore ref.digest = true ∨
        ∃ r a p, P.dag.slot r a = some p ∧ p.digest = ref.digest ∧
          req.fromRound ≤ r ∧ r < c.round)
    (hknows : R.dag.Knows R.certStore)
    (hslots : ∀ c ∈ resp.certificates, ∀ x, R.dag.slot c.round c.author = some x →
      x.digest = c.digest)
    (horphans : ∀ c ∈ resp.certificates, ∀ x ∈ R.orphanCerts.values, x.round = c.round →
      x.author = c.author → x.digest = c.digest)
    (hsaved : (SyncManager.saveBatches R.batchStore resp.batches).1 = .ok ()) :
    let routed := R.handleSyncResponse env resp sender
    let direct := R.sync.handleSyncResponseDirect R.batchStore R.dag R.certStore resp sender
    (∀ r a c, req.fromRound ≤ r → r ≤ resp.toRound → P.dag.slot r a = some c →
      (routed.dag.Contains routed.certStore c ∧ direct.2.2.1.Contains direct.2.2.2 c) ∧
        ∀ ref ∈ c.header.batchRefs, ∀ b, BatchStore.getBatch P.batchStore ref.digest = .ok b →
          BatchStore.hasBatch routed.batchStore b.digest = true ∧
            BatchStore.hasBatch direct.2.1 b.digest = true) ∧
      ∀ c ∈ resp.certificates, c.Sole resp.certificates →
        routed.dag.Contains routed.certStore c ∧ direct.2.2.1.Contains direct.2.2.2 c := by
  intro routed direct
  have hlast := SyncManager.ends_of_handleSyncRequest hresp
  obtain ⟨certs, hcerts, rfl⟩ := SyncManager.handleSyncRequest_eq_some.mp hresp
  have hown : ∀ r, ∀ c ∈ P.dag.getCertificatesForRound P.certStore order r, c.round = r :=
    fun r c hc => hshaped.round_of_listed hsound hc
  have hcontains : ∀ {s' : CertState CS}, Delivered (Header.Spares certs) R.certState certs s' →
      ∀ c ∈ certs, c.Sole certs → s'.dag.Contains s'.certStore c := by
    intro s' h
    refine h.contains hknows (fun c hc _ => hslots c hc) (fun c hc hsole x hx => hx c hc hsole) ?_
    intro before c after hsplit _ ref href
    exact hshaped.parents_before hown hlast hcerts
      (K := fun digest => R.dag.hasCertificate R.certStore digest = true) hparents hsplit href
  obtain ⟨hrouted, hroutedStore⟩ := delivered_handleSyncResponse env sender hsaved hverify
    fun x hx c hc _ => horphans c hc x hx
  obtain ⟨hdirect, hdirectStore⟩ := delivered_handleSyncResponseDirect sender hsaved hverify
  have hboth : ∀ c ∈ certs, c.Sole certs →
      routed.dag.Contains routed.certStore c ∧ direct.2.2.1.Contains direct.2.2.2 c :=
    fun c hc hsole => ⟨hcontains hrouted c hc hsole, hcontains hdirect c hc hsole⟩
  refine ⟨fun r a c hfrom hto hc => ?_, hboth⟩
  obtain ⟨hmem, hsole⟩ := hshaped.sole_of_slot hown hlast hcerts hc hfrom hto
  refine ⟨hboth c hmem hsole, fun ref href b hb => ?_⟩
  have hhas := (SyncManager.hasBatch_saveBatches hsaved).1 b
    (SyncManager.mem_collectBatches hmem href hb)
  rw [hroutedStore, hdirectStore]
  exact ⟨hhas, hhas⟩

end Looseberry

section

open IdealScheme

/-- Two certificates with batches, one without, and one over them. -/
def servedEvents : List Event :=
  let parents := [votedCertificate 1 0 [(oneByteBatch 1).getDigest] [],
    votedCertificate 2 0 [(oneByteBatch 1).getDigest, (oneByteBatch 2).getDigest] [],
    votedCertificate 3 0 [] []]
  [.batchMessage (oneByteBatch 1) 1, .batchMessage (oneByteBatch 2) 1] ++
    (parents ++ [votedCertificate 1 1 [] parents]).map .certificateMessage

def servingNode : IdealNode := (idealExec 1 10 servedEvents).1

/-- A node that has one of the certificates. -/
def askingNode : IdealNode :=
  (idealExec 2 10 [.certificateMessage (votedCertificate 3 0 [] [])]).1

/-- The answer to a request for everything. -/
def servedResponse : Option SyncResponse :=
  servingNode.sync.handleSyncRequest servingNode.dag servingNode.batchStore
    servingNode.certStore .listed { fromRound := 0, toRound := 0, requester := 2 }

theorem askingNode_knows : askingNode.dag.Knows askingNode.certStore := by
  have hdigests : DigestsFixSlots fun c => c.header = (votedCertificate 3 0 [] []).header := by
    intro c c' hc hc' _
    rw [Certificate.round, Certificate.author, Certificate.round, Certificate.author, hc, hc']
    exact ⟨rfl, rfl⟩
  have hreach : Looseberry.Reach (fun _ => True)
      (fun l _ ev => l.Brings (· = (votedCertificate 3 0 [] []).header) ev) askingNode
      (idealExec 2 10 [.certificateMessage (votedCertificate 3 0 [] [])]).2 :=
    reach_idealExec 2 10 [.certificateMessage (votedCertificate 3 0 [] [])] trivial
      (by decide +kernel)
  exact (Looseberry.indexed_of_reach hdigests hreach).knows

theorem sync_transfer_complete_served :
    ∃ resp, servedResponse = some resp ∧ resp.certificates.length = 4 ∧
      ∀ c ∈ resp.certificates, c.Sole resp.certificates →
        (askingNode.handleSyncResponse (idealEnv 9) resp 1).dag.Contains
          (askingNode.handleSyncResponse (idealEnv 9) resp 1).certStore c := by
  have hsome : servedResponse.isSome = true := by decide +kernel
  have hlength : ∀ resp ∈ servedResponse, resp.certificates.length = 4 := by decide +kernel
  have hverify : ∀ resp ∈ servedResponse, ∀ c ∈ resp.certificates,
      c.verify askingNode.sync.validatorSet = .ok () := by decide +kernel
  have hparents : ∀ resp ∈ servedResponse, ∀ c ∈ resp.certificates, ∀ ref ∈ c.header.parents,
      ∃ p ∈ servingNode.dag.certificates, p.digest = ref.digest ∧ p.round < c.round := by
    decide +kernel
  have hslots : ∀ resp ∈ servedResponse, ∀ c ∈ resp.certificates,
      ∀ x ∈ askingNode.dag.slot c.round c.author, x.digest = c.digest := by decide +kernel
  have horphans : askingNode.orphanCerts.values = [] := by decide +kernel
  have hsaved : ∀ resp ∈ servedResponse,
      (SyncManager.saveBatches askingNode.batchStore resp.batches).1 = .ok () := by
    decide +kernel
  have hreach : Looseberry.Reach (fun l => TalliesRounds.sound l.certStore) (fun _ _ _ => True)
      servingNode (idealExec 1 10 servedEvents).2 :=
    reach_idealExec 1 10 servedEvents MemoryCertificateStore.sound_new
      (.of_forall (fun _ _ _ => trivial) _ _ _)
  have hshaped := Looseberry.shaped_of_reach hreach
  obtain ⟨resp, hresp⟩ := Option.isSome_iff_exists.mp hsome
  refine ⟨resp, hresp, hlength resp hresp, ?_⟩
  have htransfer := Looseberry.sync_transfer_complete servingNode askingNode .listed
    { fromRound := 0, toRound := 0, requester := 2 } resp (idealEnv 9) 1 hresp hshaped
    (Looseberry.tallies_of_reach hreach) (hverify resp hresp)
    (fun c hc ref href => by
      obtain ⟨p, hp, hdigest, hlt⟩ := hparents resp hresp c hc ref href
      obtain ⟨r, a, hslot⟩ := Dag.mem_certificates.mp hp
      obtain ⟨rfl, -⟩ := hshaped r a p hslot
      exact .inr ⟨p.round, a, p, hslot, hdigest, UInt64.zero_le, hlt⟩)
    askingNode_knows (hslots resp hresp)
    (fun c _ x hx => absurd hx (by simp [horphans])) (hsaved resp hresp)
  exact fun c hc hsole => (htransfer.2 c hc hsole).1

end

end DagMempool
