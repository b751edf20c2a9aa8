import DagMempool.Node.Ideal
import DagMempool.Proofs.CertificateWrites
import DagMempool.Proofs.OrderedCertificates

/-!
# Commits

`NotifyCommitted` tells a round to three components. The collector keeps the
highest round it was told; the DAG and the flow controller keep the last. So the
three agree exactly as long as the last round notified is also the highest, and
after a late notification the node hands out again what was committed.

Even where commits only go up, de-duplication is per call: a batch that a
certificate of a later round refers to again is returned again once the earlier
round is committed. It is not where all certificates that refer to a batch are of
one round, the batch's `home`.
-/

namespace DagMempool

variable {maxBytes : Int64} {cb : CertifiedBatch}

namespace Looseberry

variable [Crypto] {BS CS TI : Type}

section

variable [BatchStore BS]

omit [Crypto] in
theorem mem_reapLoop {batchStore : BS} {refs : List (Certificate × BatchDigest)} {seen : List Hash}
    {totalBytes : Int64} {result : List CertifiedBatch}
    (h : cb ∈ reapLoop batchStore maxBytes refs seen totalBytes result) :
    cb ∈ result ∨ ∃ ref, (cb.certificate, ref) ∈ refs ∧
      BatchStore.getBatch batchStore ref.digest = .ok cb.batch := by
  induction refs generalizing seen totalBytes result with
  | nil => exact .inl h
  | cons r refs ih =>
    obtain ⟨cert, ref⟩ := r
    have hlater : (∃ ref, (cb.certificate, ref) ∈ refs ∧
        BatchStore.getBatch batchStore ref.digest = .ok cb.batch) →
        ∃ ref', (cb.certificate, ref') ∈ (cert, ref) :: refs ∧
          BatchStore.getBatch batchStore ref'.digest = .ok cb.batch :=
      fun ⟨ref, hmem, hget⟩ => ⟨ref, List.mem_cons_of_mem _ hmem, hget⟩
    rw [reapLoop] at h
    split at h
    · exact (ih h).imp_right hlater
    · split at h
      · exact (ih h).imp_right hlater
      · next batch hget =>
          split at h
          · exact .inl h
          · rcases ih h with hmem | hrest
            · rcases List.mem_append.mp hmem with hold | hnew
              · exact .inl hold
              · rw [List.mem_singleton] at hnew
                subst hnew
                exact .inr ⟨ref, List.mem_cons_self, hget⟩
            · exact .inr (hlater hrest)

variable [CertificateStore CS] [LawfulCertificateRounds CS] [SliceSort]

/-- It is returned under a certificate of a round that is not committed, which the DAG
holds or the store has. -/
theorem mem_reap {l : Looseberry BS CS TI} (hshaped : l.dag.Shaped) {env : Env}
    {batches : List CertifiedBatch} (h : l.reapCertifiedBatches env maxBytes = some batches)
    (hcb : cb ∈ batches) :
    (l.dag.hasCommitted = true → l.dag.committedRound < cb.certificate.round) ∧
      ((∃ r a, l.dag.slot r a = some cb.certificate) ∨
        CertificateStore.getCertificate l.certStore cb.certificate.digest =
          .ok cb.certificate) ∧
      ∃ ref ∈ cb.certificate.header.batchRefs,
        BatchStore.getBatch l.batchStore ref.digest = .ok cb.batch := by
  unfold reapCertifiedBatches at h
  dsimp only at h
  split at h
  · cases h
    cases hcb
  · next hopen =>
      split at h
      · cases h
      · next certs hcerts =>
          cases h
          rcases mem_reapLoop hcb with hnil | ⟨ref, href, hget⟩
          · cases hnil
          · obtain ⟨cert, hcert, hmem⟩ := List.mem_flatMap.mp href
            obtain ⟨ref', href', hpair⟩ := List.mem_map.mp hmem
            cases hpair
            obtain ⟨r, hfrom, hlisted⟩ := Dag.mem_getOrderedCertificates hcerts hcert
            have hplace := Dag.mem_getCertificatesForRound_cases hlisted
            have hround : cb.certificate.round = r := by
              rcases hplace with ⟨a, hslot⟩ | ⟨-, hround⟩
              · exact (hshaped r a _ hslot).1
              · exact hround
            refine ⟨fun hc => ?_, hplace.imp (fun ⟨a, ha⟩ => ⟨r, a, ha⟩) And.left,
              ref, href', hget⟩
            simp only [hc, if_true, Bool.true_and, decide_eq_true_eq,
              UInt64.le_iff_toNat_le] at hopen hfrom
            have hlt := l.dag.highestRound.toNat_lt
            rw [toNat_succ (by omega)] at hfrom
            rw [hround, UInt64.lt_iff_toNat_lt]
            omega

end

/-! ## The three committed rounds

The DAG and the flow controller are set to the round of a notification, the collector to the
higher of it and its own. -/

def notified (past : Past BS CS TI) : List UInt64 :=
  past.filterMap fun e =>
    match e.2.1 with
    | .notifyCommitted round => some round
    | _ => none

def lastNotified (past : Past BS CS TI) : UInt64 := (notified past).getLast?.getD 0

def highestNotified (past : Past BS CS TI) : UInt64 := (notified past).foldl max 0

theorem notified_append (past : Past BS CS TI) (l : Looseberry BS CS TI) (ev : Event × Env) :
    notified (past ++ [(l, ev)]) = notified past ++
      match ev.1 with
      | .notifyCommitted round => [round]
      | _ => [] := by
  rw [notified, List.filterMap_append]
  obtain ⟨ev, env⟩ := ev
  cases ev <;> rfl

omit [Crypto] in
theorem max_eq (m x : UInt64) : max m x = if m ≤ x then x else m := rfl

omit [Crypto] in
theorem le_foldl_max {r m : UInt64} {rounds : List UInt64} (h : r ≤ m ∨ r ∈ rounds) :
    r ≤ rounds.foldl max m := by
  induction rounds generalizing m with
  | nil => exact h.resolve_right (by simp)
  | cons x rounds ih =>
    refine ih ?_
    rw [max_eq]
    rcases h with hle | hmem
    · refine .inl ?_
      split
      · next hmx => exact UInt64.le_trans hle hmx
      · exact hle
    · rcases List.mem_cons.mp hmem with rfl | hmem
      · refine .inl ?_
        split
        · exact UInt64.le_refl r
        · next hmx => exact UInt64.le_of_lt (UInt64.not_le.mp hmx)
      · exact .inr hmem

omit [Crypto] in
theorem foldl_max_mem (m : UInt64) (rounds : List UInt64) :
    rounds.foldl max m = m ∨ rounds.foldl max m ∈ rounds := by
  induction rounds generalizing m with
  | nil => exact .inl rfl
  | cons x rounds ih =>
    rw [List.foldl_cons]
    rcases ih (max m x) with heq | hmem
    · rw [heq, max_eq]
      split
      · exact .inr List.mem_cons_self
      · exact .inl rfl
    · exact .inr (List.mem_cons_of_mem _ hmem)

theorem lastNotified_eq_highest_iff (past : Past BS CS TI) :
    lastNotified past = highestNotified past ↔ ∀ r ∈ notified past, r ≤ lastNotified past := by
  constructor
  · intro heq r hr
    rw [heq]
    exact le_foldl_max (.inr hr)
  · intro hle
    refine UInt64.le_antisymm ?_ ?_
    · unfold lastNotified
      cases hlast : (notified past).getLast? with
      | none => exact UInt64.zero_le
      | some r => exact le_foldl_max (.inr (List.mem_of_getLast? hlast))
    · rcases foldl_max_mem 0 (notified past) with heq | hmem
      · rw [highestNotified, heq]
        exact UInt64.zero_le
      · exact hle _ hmem

/-- What the components were told: the DAG and the flow controller have the last round,
the collector the highest. -/
structure Progress (l : Looseberry BS CS TI) (past : Past BS CS TI) : Prop where
  shaped : l.dag.Shaped
  dag : l.dag.committedRound = lastNotified past
  committed : l.dag.hasCommitted = !(notified past).isEmpty
  flow : l.flow.committedRound = lastNotified past
  gc : l.gc.committedRound = highestNotified past

variable {past past' : Past BS CS TI} {round : UInt64}

theorem lastNotified_concat (h : notified past' = notified past ++ [round]) :
    lastNotified past' = round := by
  rw [lastNotified, h, List.getLast?_concat]
  rfl

theorem highestNotified_concat (h : notified past' = notified past ++ [round]) :
    highestNotified past' = max (highestNotified past) round := by
  rw [highestNotified, h, List.foldl_append]
  rfl

variable {l : Looseberry BS CS TI}

theorem Progress.of_notified_eq (h : l.Progress past) (heq : notified past' = notified past) :
    l.Progress past' := by
  have hlast : lastNotified past' = lastNotified past := by rw [lastNotified, heq, lastNotified]
  have hhighest : highestNotified past' = highestNotified past := by
    rw [highestNotified, heq, highestNotified]
  exact ⟨h.shaped, by rw [hlast]; exact h.dag, by rw [heq]; exact h.committed,
    by rw [hlast]; exact h.flow, by rw [hhighest]; exact h.gc⟩

theorem started_progress (h : l.Started) : l.Progress [] := by
  obtain ⟨cfg, vs, batchStore, certStore, txIndex, now, rfl⟩ := h
  exact ⟨Dag.shaped_new _, rfl, rfl, rfl, rfl⟩

/-- The node between the two halves of a notification. -/
theorem markCommitted_progress (h : l.Progress past)
    (heq : notified past' = notified past ++ [round]) : (l.markCommitted round).Progress past' := by
  have hmarks : (l.markCommitted round).dag.committedRound = round ∧
      (l.markCommitted round).dag.hasCommitted = true := by
    rcases l.markCommitted_dag round with hdag | hdag
    · rw [hdag]
      exact ⟨rfl, rfl⟩
    · rw [hdag]
      exact ⟨rfl, rfl⟩
  have hgc : (l.markCommitted round).gc.committedRound =
      max l.gc.committedRound round := by
    rw [markCommitted_gc, max_eq]
    split
    · next hlt => rw [if_pos (UInt64.le_of_lt hlt)]
    · next hge =>
        split
        · next hle => exact UInt64.le_antisymm hle (UInt64.not_lt.mp hge)
        · rfl
  have hmark : l.collecting (.notifyCommitted round) = some (l.markCommitted round) := rfl
  have hshaped := collecting_dag (I := Dag.Shaped) (fun _ r hd => hd.setCommittedRound r) hmark
    h.shaped
  refine ⟨hshaped, ?_, ?_, ?_, ?_⟩
  · rw [hmarks.1, lastNotified_concat heq]
  · rw [hmarks.2, heq]
    simp
  · rw [lastNotified_concat heq]
    exact FlowController.checkFlowControl_rounds _
  · rw [hgc, h.gc, highestNotified_concat heq]

section

variable [SliceSort] [BatchStore BS] [CertificateStore CS] [TxIndex TI] {past : Past BS CS TI}

theorem Progress.collected {l m : Looseberry BS CS TI} {ev : Event × Env} (h : m.Progress past)
    (hcollect : l.collecting ev.1 = some m) : (l.step ev).1.Progress past := by
  have hmarks : (l.step ev).1.dag.committedRound = m.dag.committedRound ∧
      (l.step ev).1.dag.hasCommitted = m.dag.hasCommitted ∧
      (l.step ev).1.dag.Shaped := by
    rcases (step_collected hcollect).dag with heq | ⟨r, heq⟩
    · rw [heq]
      exact ⟨rfl, rfl, h.shaped⟩
    · rw [heq]
      exact ⟨rfl, rfl, h.shaped.pruneRoundsBefore r⟩
  have hgc : (l.step ev).1.gc.committedRound = m.gc.committedRound := by
    obtain ⟨_, _, heq⟩ := step_of_collecting hcollect
    rw [heq]
    exact (m.gc.collect_gc m.gcTargets ev.2.gc m.txRecovery).1
  refine ⟨hmarks.2.2, hmarks.1.trans h.dag, hmarks.2.1.trans h.committed, ?_, hgc.trans h.gc⟩
  rw [(step_collected hcollect).flow]
  exact h.flow

theorem step_progress (h : l.Progress past) (ev : Event × Env) :
    (l.step ev).1.Progress (past ++ [(l, ev)]) := by
  have hnotified := notified_append past l ev
  cases hcollect : l.collecting ev.1 with
  | none =>
    obtain ⟨hround, hcommitted, hflow⟩ :=
      (step_written l.known_true (l.brings_true ev) hcollect).2.marks
    have hsame : notified (past ++ [(l, ev)]) = notified past := by
      rw [hnotified]
      split
      · next round hev =>
          rw [hev] at hcollect
          exact absurd hcollect (by simp [collecting])
      · exact List.append_nil _
    have hstep : (l.step ev).1.Progress past :=
      ⟨step_shaped h.shaped ev, hround.trans h.dag, hcommitted.trans h.committed,
        hflow.trans h.flow, by rw [(l.step_gc ev hcollect).1]; exact h.gc⟩
    exact hstep.of_notified_eq hsame
  | some m =>
    refine Progress.collected ?_ hcollect
    obtain ⟨ev, env⟩ := ev
    cases ev with
    | gcTick =>
      cases hcollect
      exact h.of_notified_eq (by rw [hnotified]; exact List.append_nil _)
    | notifyCommitted round =>
      cases hcollect
      exact markCommitted_progress h hnotified
    | _ => exact absurd hcollect (by simp [collecting])

theorem PastReach.progress {init : Looseberry BS CS TI → Prop}
    {ok : Looseberry BS CS TI → Past BS CS TI → Event × Env → Prop} (h : PastReach init ok l past) :
    l.Progress past :=
  Run.Reach.invariant (I := fun l past => l.Progress past)
    (fun _ h0 => started_progress h0.1) (fun _ _ ev hl _ => step_progress hl ev) h

/-- In every state of every run, the committed rounds are all the highest notified, and
nothing at or below it is handed out, exactly if the last round notified is the
highest. -/
theorem commit_progress_iff [LawfulCertificateRounds CS] {l : Looseberry BS CS TI}
    {past : Past BS CS TI} (h : PastReach (fun _ => True) (fun _ _ _ => True) l past) :
    (l.dag.committedRound = highestNotified past ∧
        l.flow.committedRound = highestNotified past ∧
        l.gc.committedRound = highestNotified past ∧
        ∀ env maxBytes batches, l.reapCertifiedBatches env maxBytes = some batches →
          ∀ cb ∈ batches, ∀ r ∈ notified past, r < cb.certificate.round) ↔
      ∀ r ∈ notified past, r ≤ lastNotified past := by
  have hp := PastReach.progress h
  rw [← lastNotified_eq_highest_iff, hp.dag, hp.flow, hp.gc]
  constructor
  · exact fun hall => hall.1
  · intro hlast
    refine ⟨hlast, hlast, rfl, fun env maxBytes batches hreap cb hcb r hr => ?_⟩
    have hcommitted : l.dag.hasCommitted = true := by
      rw [hp.committed, Bool.not_eq_true', List.isEmpty_eq_false_iff]
      exact List.ne_nil_of_mem hr
    have hlt := (mem_reap hp.shaped hreap hcb).1 hcommitted
    rw [hp.dag] at hlt
    exact UInt64.lt_of_le_of_lt ((lastNotified_eq_highest_iff past).mp hlast r hr) hlt

end

end Looseberry

/-! ## One batch, two commits

A batch is handed out under a certificate of a round above the last commit. If all certificates
that refer to it are of one round, a commit of this round ends it. -/

/-- Everything the header refers to is at home in its round. -/
def Header.AtHome (home : Hash → UInt64) (h : Header) : Prop :=
  ∀ ref ∈ h.batchRefs, home ref.digest = h.round
deriving Decidable

namespace Looseberry

variable [Crypto] {BS CS TI : Type} [BatchStore BS] [CertificateStore CS]

/-- No certificate the node has, or could form, refers to a batch away from its home. -/
structure Housed (home : Hash → UInt64) (l : Looseberry BS CS TI) : Prop where
  known : l.Known (Header.AtHome home)
  dag : ∀ r a c, l.dag.slot r a = some c → c.header.AtHome home
  store : ∀ d c, CertificateStore.getCertificate l.certStore d = .ok c → c.header.AtHome home

variable [SliceSort] {home : Hash → UInt64} {l : Looseberry BS CS TI}

theorem home_of_reap [LawfulBatchStore BS] [LawfulCertificateRounds CS] (h : l.Housed home)
    (hshaped : l.dag.Shaped) {env : Env} {batches : List CertifiedBatch}
    (hreap : l.reapCertifiedBatches env maxBytes = some batches) (hcb : cb ∈ batches) :
    home cb.batch.digest = cb.certificate.round := by
  obtain ⟨-, hplace, ref, href, hget⟩ := mem_reap hshaped hreap hcb
  rw [LawfulBatchStore.digest_eq hget]
  rcases hplace with ⟨r, a, hslot⟩ | hstored
  · exact h.dag r a _ hslot ref href
  · exact h.store _ _ hstored ref href

variable [TxIndex TI] [LawfulCertificateStore CS] {ev : Event × Env}

theorem step_housed (h : l.Housed home) (hev : l.Brings (Header.AtHome home) ev) :
    (l.step ev).1.Housed home := by
  cases hcollect : l.collecting ev.1 with
  | none =>
    obtain ⟨hknown, hwritten⟩ := step_written h.known hev hcollect
    refine ⟨hknown, fun r a c hslot => ?_, fun d c hget => ?_⟩
    · rcases hwritten.slot hslot with hold | ⟨hnew, -⟩
      · exact h.dag r a c hold
      · exact hnew
    · rcases hwritten.stored hget with hold | hnew
      · exact h.store d c hold
      · exact hnew
  | some m =>
    refine ⟨step_known_of_collecting hcollect h.known, ?_, ?_⟩
    · refine step_dag_of_collecting
        (I := fun d => ∀ r a c, d.slot r a = some c → c.header.AtHome home)
        (fun d round hd r a c hslot => ?_) (fun d round hd r a c hslot => ?_) hcollect h.dag
      · rw [Dag.slot_setCommittedRound] at hslot
        exact hd r a c hslot
      · rw [Dag.slot_pruneRoundsBefore] at hslot
        split at hslot
        · cases hslot
        · exact hd r a c hslot
    · exact step_certStore_of_collecting
        (I := fun s => ∀ d c, CertificateStore.getCertificate s d = .ok c →
          c.header.AtHome home)
        (fun s round hs d c hget => hs d c (LawfulCertificateStore.getCertificate_delete hget))
        hcollect h.store

/-- A batch was returned under a certificate, a round from that of the certificate on
was committed since, and the batch can be returned again now. -/
def HandedOutAgain (l : Looseberry BS CS TI) (past : Past BS CS TI) : Prop :=
  ∃ before l₁ maxBytes₁ env₁ since, past = before ++ (l₁, (.reap maxBytes₁, env₁)) :: since ∧
    ∃ batches₁, l₁.reapCertifiedBatches env₁ maxBytes₁ = some batches₁ ∧
      ∃ cb₁ ∈ batches₁, (∃ round ∈ notified since, cb₁.certificate.round ≤ round) ∧
        ∃ env maxBytes batches, l.reapCertifiedBatches env maxBytes = some batches ∧
          ∃ cb ∈ batches, cb.batch.digest = cb₁.batch.digest

/-- Commits do not go back. -/
def InOrder (_ : Looseberry BS CS TI) (past : Past BS CS TI) (ev : Event × Env) : Prop :=
  match ev.1 with
  | .notifyCommitted round => ∀ r ∈ notified past, r ≤ round
  | _ => True

instance (l : Looseberry BS CS TI) (past : Past BS CS TI) (ev : Event × Env) :
    Decidable (l.InOrder past ev) :=
  decidable_of_iff (((notified past).all fun r =>
      (notified [(l, ev)]).all fun round => decide (r ≤ round)) = true) (by
    obtain ⟨e, env⟩ := ev
    unfold InOrder
    generalize notified past = earlier
    cases e <;> simp [notified])

/-- Commits do not go back, and what arrives or is made refers to batches at home. -/
def OneHome (home : Hash → UInt64) (l : Looseberry BS CS TI) (past : Past BS CS TI)
    (ev : Event × Env) : Prop :=
  l.InOrder past ev ∧ l.Brings (Header.AtHome home) ev
deriving Decidable

omit [BatchStore BS] [CertificateStore CS] [SliceSort] [TxIndex TI]
  [LawfulCertificateStore CS] in
theorem InOrder.le_lastNotified {past : Past BS CS TI} (hev : l.InOrder past ev)
    (h : ∀ r ∈ notified past, r ≤ lastNotified past) :
    ∀ r ∈ notified (past ++ [(l, ev)]), r ≤ lastNotified (past ++ [(l, ev)]) := by
  have hnotified := notified_append past l ev
  unfold InOrder at hev
  split at hev
  · next round hround =>
      rw [hround] at hnotified
      intro r hr
      rw [lastNotified_concat hnotified]
      rw [hnotified] at hr
      rcases List.mem_append.mp hr with hold | hnew
      · exact hev r hold
      · rw [List.mem_singleton.mp hnew]
        exact UInt64.le_refl round
  · next hother =>
      have hsame : notified (past ++ [(l, ev)]) = notified past := by
        rw [hnotified]
        split
        · next round hround => exact absurd hround (hother round)
        · exact List.append_nil _
      rw [lastNotified, hsame]
      exact h

/-- A run in which batches stay at home: so they do now, and did whenever something
happened, and the last commit is the highest. -/
structure HousedRun (home : Hash → UInt64) (l : Looseberry BS CS TI) (past : Past BS CS TI) :
    Prop where
  progress : l.Progress past
  now : l.Housed home
  earlier : ∀ e ∈ past, e.1.Housed home ∧ e.1.dag.Shaped
  inOrder : ∀ r ∈ notified past, r ≤ lastNotified past

omit [BatchStore BS] [SliceSort] [TxIndex TI] [LawfulCertificateStore CS] in
theorem started_housedRun (h : l.Started)
    (hstore : ∀ d c, CertificateStore.getCertificate l.certStore d = .ok c →
      c.header.AtHome home) : l.HousedRun home [] := by
  have hprogress := started_progress h
  have hknown := started_known (Header.AtHome home) h
  obtain ⟨cfg, vs, batchStore, certStore, txIndex, now, rfl⟩ := h
  refine ⟨hprogress, ⟨hknown, fun r a c hc => ?_, hstore⟩, fun e he => absurd he (by simp),
    fun r hr => absurd hr (by simp [notified])⟩
  exact absurd hc (by simp [start])

theorem step_housedRun {past : Past BS CS TI} (h : l.HousedRun home past)
    (hev : l.OneHome home past ev) : (l.step ev).1.HousedRun home (past ++ [(l, ev)]) := by
  refine ⟨step_progress h.progress ev, step_housed h.now hev.2, fun e he => ?_,
    hev.1.le_lastNotified h.inOrder⟩
  rcases List.mem_append.mp he with hold | hnew
  · exact h.earlier e hold
  · rw [List.mem_singleton.mp hnew]
    exact ⟨h.now, h.progress.shaped⟩

/-- Where each batch is referred to from one round only, and commits do not go back, no
batch is handed out for two commits. -/
theorem not_handed_out_again [LawfulBatchStore BS] [LawfulCertificateRounds CS]
    {l : Looseberry BS CS TI} {past : Past BS CS TI}
    (h : PastReach (fun l => ∀ d c, CertificateStore.getCertificate l.certStore d = .ok c →
      c.header.AtHome home) (OneHome home) l past) : ¬ l.HandedOutAgain past := by
  obtain ⟨hprogress, hhoused, hpast, hle⟩ : l.HousedRun home past :=
    Run.Reach.invariant (I := fun (l : Looseberry BS CS TI) past => l.HousedRun home past)
      (fun _ h0 => started_housedRun h0.1 h0.2) (fun _ _ _ hl hev => step_housedRun hl hev) h
  rintro ⟨before, l₁, maxBytes₁, env₁, since, rfl, batches₁, hreap₁, cb₁, hcb₁,
    ⟨round, hround, hcert⟩, env, maxBytes, batches, hreap, cb, hcb, hdigest⟩
  obtain ⟨hhoused₁, hshaped₁⟩ := hpast (l₁, (.reap maxBytes₁, env₁)) (by simp)
  have hnotified : round ∈ notified (before ++ (l₁, (.reap maxBytes₁, env₁)) :: since) := by
    rw [notified, List.filterMap_append]
    exact List.mem_append_right _ hround
  have hcommitted : l.dag.hasCommitted = true := by
    rw [hprogress.committed, Bool.not_eq_true', List.isEmpty_eq_false_iff]
    exact List.ne_nil_of_mem hnotified
  have hlt := (mem_reap hprogress.shaped hreap hcb).1 hcommitted
  have hsame : cb.certificate.round = cb₁.certificate.round := by
    rw [← home_of_reap hhoused hprogress.shaped hreap hcb, hdigest,
      home_of_reap hhoused₁ hshaped₁ hreap₁ hcb₁]
  rw [hprogress.dag, hsame] at hlt
  exact UInt64.not_lt.mpr (UInt64.le_trans hcert (hle round hnotified)) hlt

end Looseberry

section

open IdealScheme

def fifthRoundBatch : Batch := .new 0 0 0 [[1]] 0

def commits (first second : UInt64) : List Event :=
  [.batchMessage fifthRoundBatch 1,
    .certificateMessage (votedCertificate 1 4 [fifthRoundBatch.getDigest] []),
    .notifyCommitted first, .notifyCommitted second]

/-- The second notification is late: the DAG and the flow controller go back, and the
fifth round is handed out although a later one is committed. -/
theorem late_notification_goes_back :
    ∃ (l : IdealNode) (past : Looseberry.Past _ _ _),
      Looseberry.PastReach (fun _ => True) (fun _ _ _ => True) l past ∧
      Looseberry.notified past = [5, 3] ∧
      l.dag.committedRound = 3 ∧ l.flow.committedRound = 3 ∧ l.gc.committedRound = 5 ∧
      ∃ batches, l.reapCertifiedBatches (idealEnv 9) 100 = some batches ∧
        ∃ cb ∈ batches, cb.certificate.round = 4 := by
  have hrun : Looseberry.PastReach (fun _ => True) (fun _ _ _ => True)
      (idealPast 0 10 (commits 5 3)).1 (idealPast 0 10 (commits 5 3)).2 :=
    reach_idealPast trivial (.of_forall (fun _ _ _ => trivial) _ _ _)
  have hreap : ((idealPast 0 10 (commits 5 3)).1.reapCertifiedBatches (idealEnv 9) 100).map
      (fun batches => batches.map (·.certificate.round)) = some [4] := by decide +kernel
  obtain ⟨batches, hbatches, hrounds⟩ := Option.map_eq_some_iff.mp hreap
  have hmem : (4 : UInt64) ∈ batches.map (·.certificate.round) := by rw [hrounds]; simp
  refine ⟨_, _, hrun, ?_, ?_, ?_, ?_, batches, hbatches, List.mem_map.mp hmem⟩
  all_goals decide +kernel

theorem commit_progress_iff_in_order :
    ∃ (l : IdealNode) (past : Looseberry.Past _ _ _),
      Looseberry.PastReach (fun _ => True) (fun _ _ _ => True) l past ∧
      Looseberry.notified past = [2, 3] ∧ l.dag.committedRound = 3 ∧
      Looseberry.highestNotified past = 3 := by
  have hrun : Looseberry.PastReach (fun _ => True) (fun _ _ _ => True)
      (idealPast 0 10 (commits 2 3)).1 (idealPast 0 10 (commits 2 3)).2 :=
    reach_idealPast trivial (.of_forall (fun _ _ _ => trivial) _ _ _)
  have hnotified : Looseberry.notified (idealPast 0 10 (commits 2 3)).2 = [2, 3] := by
    decide +kernel
  have hlast : Looseberry.lastNotified (idealPast 0 10 (commits 2 3)).2 = 3 := by
    decide +kernel
  have hhighest : Looseberry.highestNotified (idealPast 0 10 (commits 2 3)).2 = 3 := by
    decide +kernel
  generalize idealPast 0 10 (commits 2 3) = run at hrun hnotified hlast hhighest
  have hinOrder : ∀ r ∈ Looseberry.notified run.2, r ≤ Looseberry.lastNotified run.2 := by
    rw [hnotified, hlast]
    intro r hr
    rcases List.mem_pair.mp hr with rfl | rfl
    · decide
    · decide
  have hagree := (Looseberry.commit_progress_iff hrun).mpr hinOrder
  exact ⟨run.1, run.2, hrun, hnotified, hagree.1.trans hhighest, hhighest⟩

def firstBatch : Batch := .new 0 1 0 [[1]] 0

/-- A round later, validator 2 refers to the batch of validator 1 again. -/
def citedTwice : List Event :=
  [.batchMessage firstBatch 1,
    .certificateMessage (votedCertificate 1 0 [firstBatch.getDigest] []),
    .certificateMessage (votedCertificate 2 1 [firstBatch.getDigest] [])]

theorem batch_handed_out_for_two_commits :
    ∃ (l : IdealNode) (past : Looseberry.Past _ _ _),
      Looseberry.PastReach (fun _ => True) Looseberry.InOrder l past ∧
      l.HandedOutAgain past := by
  have hrun : Looseberry.PastReach (fun _ => True) Looseberry.InOrder
      (idealPast 0 10 (citedTwice ++ [.reap 100, .notifyCommitted 0])).1
      (idealPast 0 10 (citedTwice ++ [.reap 100, .notifyCommitted 0])).2 :=
    reach_idealPast trivial (by decide +kernel)
  have hfirst : ((idealPast 0 10 citedTwice).1.reapCertifiedBatches (idealEnv 4) 100) =
      some [⟨firstBatch, votedCertificate 1 0 [firstBatch.getDigest] []⟩] := by
    decide +kernel
  have hagain : ((idealPast 0 10 (citedTwice ++ [.reap 100, .notifyCommitted 0])).1
      |>.reapCertifiedBatches (idealEnv 6) 100) =
      some [⟨firstBatch, votedCertificate 2 1 [firstBatch.getDigest] []⟩] := by
    decide +kernel
  refine ⟨_, _, hrun, _, _, 100, idealEnv 4, _,
    Run.exec_history_split (idealNode 0 10) (idealRun citedTwice) (.reap 100, idealEnv 4)
      [(.notifyCommitted 0, idealEnv 5)], _, hfirst, _, List.mem_singleton.mpr rfl, ?_,
    idealEnv 6, 100, _, hagain, _, List.mem_singleton.mpr rfl, rfl⟩
  exact ⟨0, by decide +kernel, by decide +kernel⟩

def secondBatch : Batch := .new 0 2 1 [[2]] 0

/-- Each validator refers to a batch of its own. -/
def citedOnce : List Event :=
  [.batchMessage firstBatch 1, .batchMessage secondBatch 2,
    .certificateMessage (votedCertificate 1 0 [firstBatch.getDigest] []),
    .certificateMessage (votedCertificate 2 1 [secondBatch.getDigest] []),
    .reap 100, .notifyCommitted 0]

def batchHome (digest : Hash) : UInt64 := if digest = firstBatch.digest then 0 else 1

theorem not_handed_out_again_cited_once :
    ∃ (l : IdealNode) (past : Looseberry.Past _ _ _),
      Looseberry.PastReach (fun l => ∀ d c, CertificateStore.getCertificate l.certStore d =
        .ok c → c.header.AtHome batchHome) (Looseberry.OneHome batchHome) l past ∧
      Looseberry.notified past = [0] ∧
      (l.reapCertifiedBatches (idealEnv 9) 100).map (·.map (·.batch)) = some [secondBatch] ∧
      ¬ l.HandedOutAgain past := by
  have hrun : Looseberry.PastReach (fun l => ∀ d c,
      CertificateStore.getCertificate l.certStore d = .ok c → c.header.AtHome batchHome)
      (Looseberry.OneHome batchHome) (idealPast 0 10 citedOnce).1
      (idealPast 0 10 citedOnce).2 := by
    refine reach_idealPast (fun d c hc => ?_) (by decide +kernel)
    obtain ⟨-, hget⟩ := MemoryCertificateStore.getCertificate_eq_ok.mp hc
    exact absurd hget (GoMap.get_empty d ▸ (by simp))
  exact ⟨_, _, hrun, by decide +kernel, by decide +kernel,
    Looseberry.not_handed_out_again hrun⟩

end

end DagMempool
