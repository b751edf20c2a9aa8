import DagMempool.Proofs.CommitProgress

/-!
# What the flow controller follows

The controller compares two rounds and keeps of either the one it was told last. The round
of a certificate is told to it when the certificate has been handled, whatever came of that:
an old certificate takes the current round back, and one that verifies under no validator
set moves it anywhere. So the gate says how far the certificate handled last is above the
commit notified last. That is what flow control is for as long as that certificate is a
verified one and no verified one before it was of a higher round.
-/

namespace DagMempool

namespace FlowController

/-- The gate is as the rounds say, and nothing is counted as pending. -/
structure Settled (fc : FlowController) : Prop where
  paused : fc.paused = fc.shouldPause
  batches : fc.pendingBatches = 0
  headers : fc.pendingHeaders = 0

theorem checkFlowControl_eq (fc : FlowController) :
    ∃ pauseCount resumeCount, fc.checkFlowControl =
      { fc with paused := fc.shouldPause, pauseCount, resumeCount } := by
  rcases fc.checkFlowControl_cases with ⟨hsame, -, heq⟩ | ⟨-, hshould, -, heq⟩ |
    ⟨-, hshould, -, heq⟩
  · exact ⟨fc.pauseCount, fc.resumeCount, by rw [heq, ← hsame]⟩
  · exact ⟨_, _, by rw [heq, hshould]⟩
  · exact ⟨_, _, by rw [heq, hshould]⟩

theorem Settled.paused_iff {fc : FlowController} (h : fc.Settled)
    (hmax : 0 < fc.cfg.maxUncommittedRounds) :
    fc.paused = true ↔
      fc.committedRound.toNat + fc.cfg.maxUncommittedRounds.toNat ≤ fc.currentRound.toNat := by
  rw [UInt64.lt_iff_toNat_lt, UInt64.toNat_zero] at hmax
  rw [h.paused, shouldPause_of_pending_zero h.batches h.headers, decide_eq_true_eq,
    UInt64.le_iff_toNat_le, uncommittedGap_toNat]
  omega

/-- The controller after it was told rounds, oldest first. -/
def told (fc : FlowController) (rounds : List UInt64) : FlowController :=
  rounds.foldl updateCurrentRound fc

/-- It follows these two rounds. -/
structure Follows (fc : FlowController) (max current committed : UInt64) : Prop where
  settled : fc.Settled
  max : fc.cfg.maxUncommittedRounds = max
  current : fc.currentRound = current
  committed : fc.committedRound = committed

variable {fc : FlowController} {max current committed : UInt64}

theorem Follows.updateCurrentRound (h : fc.Follows max current committed) (round : UInt64) :
    (fc.updateCurrentRound round).Follows max round committed := by
  obtain ⟨_, _, heq⟩ := checkFlowControl_eq { fc with currentRound := round }
  rw [FlowController.updateCurrentRound, heq]
  exact ⟨⟨rfl, h.settled.batches, h.settled.headers⟩, h.max, rfl, h.committed⟩

theorem Follows.updateCommittedRound (h : fc.Follows max current committed) (round : UInt64) :
    (fc.updateCommittedRound round).Follows max current round := by
  obtain ⟨_, _, heq⟩ := checkFlowControl_eq { fc with committedRound := round }
  rw [FlowController.updateCommittedRound, heq]
  exact ⟨⟨rfl, h.settled.batches, h.settled.headers⟩, h.max, h.current, rfl⟩

theorem Follows.told (h : fc.Follows max current committed) (rounds : List UInt64) :
    (fc.told rounds).Follows max (rounds.getLast?.getD current) committed := by
  induction rounds generalizing fc current with
  | nil => exact h
  | cons round rounds ih =>
    have hrest := ih (h.updateCurrentRound round)
    rw [List.getLast?_cons]
    exact hrest

theorem follows_new {cfg : FlowConfig} (hmax : 0 < cfg.maxUncommittedRounds) :
    (new cfg).Follows cfg.maxUncommittedRounds 0 0 := by
  refine ⟨⟨?_, rfl, rfl⟩, rfl, rfl, rfl⟩
  rw [shouldPause_of_pending_zero rfl rfl]
  exact (decide_eq_false (UInt64.not_le.mpr hmax)).symm

end FlowController

/-! ## What it is told

Each handler tells the controller of the certificates it has handled, at the end of it and in
their order. Those the node forms are the ones it broadcasts. -/

def broadcastCertificates (outputs : List Output) : List Certificate :=
  outputs.filterMap fun o =>
    match o with
    | .broadcastCertificate cert => some cert
    | _ => none

theorem broadcastCertificates_append (outputs outputs' : List Output) :
    broadcastCertificates (outputs ++ outputs') =
      broadcastCertificates outputs ++ broadcastCertificates outputs' :=
  List.filterMap_append

theorem broadcastCertificates_map (certs : List Certificate) :
    broadcastCertificates (certs.map .broadcastCertificate) = certs := by
  rw [broadcastCertificates, List.filterMap_map]
  exact List.filterMap_some

theorem Pool.addTx_ne_flowControlPaused {TI : Type} [Crypto] [TxIndex TI] (p : Pool) (txIndex : TI)
    (tx : Transaction) : (p.addTx txIndex tx).1 ≠ .error .flowControlPaused := by
  unfold Pool.addTx
  split
  · simp
  · split
    · simp
    · unfold Worker.addTx
      split
      · simp
      · split
        · simp
        · repeat' split
          all_goals simp

namespace Looseberry

variable [Crypto] [SliceSort] {BS CS TI : Type}
variable [BatchStore BS] [CertificateStore CS] [TxIndex TI]

/-- The certificates an event tells of: one that arrives, those of a response that are
delivered, and those the node forms, which it broadcasts. -/
def toldBy (l : Looseberry BS CS TI) (ev : Event × Env) : List Certificate :=
  match ev.1 with
  | .certificateMessage cert => [cert]
  | .syncResponse resp sender => (l.takeSyncResponse resp sender).1
  | .voteMessage _ | .headerTick => broadcastCertificates (l.step ev).2
  | _ => []

variable {p : Primary} (l : Looseberry BS CS TI) (vote : Vote) (env : Env)

section

variable {flow : FlowController}

/-- The callback has told of the certificates it was called with. -/
def Formed.Tells (flow : FlowController) (k : Formed) : Prop :=
  k.flow = flow.told (k.certs.map (·.round))

variable {k : Formed} {certStore : CS}

omit [Crypto] [BatchStore BS] [TxIndex TI] [SliceSort] in
theorem onCertificateFormed_tells (h : k.Tells flow) (certStore : CS) (cert : Certificate) :
    (onCertificateFormed k certStore cert).1.Tells flow := by
  show k.flow.updateCurrentRound cert.round = flow.told ((k.certs ++ [cert]).map (·.round))
  rw [h, List.map_append, FlowController.told, FlowController.told, List.foldl_append]
  rfl

omit [BatchStore BS] [TxIndex TI] in
theorem recordVote_tells (h : k.Tells flow) (vote : Vote) (order : IterOrder Vote) (now : Int) :
    (p.recordVote certStore onCertificateFormed k vote order now).2.2.2.Tells flow := by
  obtain ⟨vt, -, heq | ⟨ph, -, -, heq⟩⟩ :=
    p.recordVote_cases certStore onCertificateFormed k vote order now
  · rw [heq]
    exact h
  · rw [heq]
    exact onCertificateFormed_tells h _ _

omit [BatchStore BS] [TxIndex TI] in
theorem handleVote_tells (h : k.Tells flow) (vote : Vote) (order : IterOrder Vote) (now : Int) :
    (p.handleVote certStore onCertificateFormed k vote order now).2.2.2.Tells flow :=
  Primary.handleVote_leaves (I := fun _ (_ : CS) (k : Formed) => k.Tells flow) h
    fun _ => ⟨h, recordVote_tells h vote order now⟩

omit [BatchStore BS] [TxIndex TI] in
theorem tryCreateHeader_tells (h : k.Tells flow) (hasAckQuorum : Hash → Bool)
    (order : IterOrder Vote) (now : Int) :
    (p.tryCreateHeader certStore onCertificateFormed k hasAckQuorum order now).2.2.2.Tells
      flow := by
  have hkeeps : ∀ digest, Primary.Keeps (fun _ _ k => k.Tells flow) (fun _ => True)
      (onCertificateFormed : CertSink Formed CS) order now digest := by
    intro digest
    exact ⟨⟨fun hk _ => recordVote_tells hk _ order now, fun _ _ _ _ => trivial, fun hk => hk⟩,
      fun _ hk => hk⟩
  exact Primary.tryCreateHeader_survives (I := fun _ _ (k : Formed) => k.Tells flow)
    (J := fun _ _ _ (k : Formed) => k.Tells flow) (V := fun _ _ => True) hasAckQuorum (fun _ => h)
    (fun _ _ _ _ _ => ⟨h, fun _ _ => trivial⟩) (fun header => (hkeeps header.digest).survives)
    (fun _ _ _ _ hJ => hJ)

omit [BatchStore BS] [TxIndex TI] [SliceSort] in
theorem handleCertificateMessage_flow (cert : Certificate) :
    (l.handleCertificateMessage env cert).flow = l.flow.updateCurrentRound cert.round := by
  obtain ⟨_, _, _, heq⟩ := (l.admitCertificate cert).2.settleOrphans_eq env cert
    (l.admitCertificate cert).1
  rw [handleCertificateMessage, heq]
  rfl

omit [BatchStore BS] [TxIndex TI] [SliceSort] in
theorem foldl_handleCertificateMessage_flow (certs : List Certificate) (l : Looseberry BS CS TI) :
    (certs.foldl (fun l cert => l.handleCertificateMessage env cert) l).flow =
      l.flow.told (certs.map (·.round)) := by
  induction certs generalizing l with
  | nil => rfl
  | cons cert certs ih =>
    rw [List.foldl_cons, ih, handleCertificateMessage_flow]
    rfl

end

theorem toldBy_voteMessage :
    l.toldBy (.voteMessage vote, env) =
      (l.primary.handleVote l.certStore onCertificateFormed
        { dag := l.dag, flow := l.flow, certs := [] } vote env.votes env.now).2.2.2.certs :=
  broadcastCertificates_map _

theorem toldBy_headerTick :
    l.toldBy (.headerTick, env) =
      (l.primary.tryCreateHeader l.certStore onCertificateFormed
        { dag := l.dag, flow := l.flow, certs := [] } l.pool.hasBatchAckQuorum env.votes
        env.now).2.2.2.certs := by
  have hheaders : ∀ headers : List Header,
      broadcastCertificates (headers.map .broadcastHeader) = [] := by
    intro headers
    rw [broadcastCertificates, List.filterMap_map]
    exact List.filterMap_eq_nil_iff.mpr fun _ _ => rfl
  refine (broadcastCertificates_append _ _).trans ?_
  rw [hheaders, List.append_nil]
  exact broadcastCertificates_map _

/-- A commit sets the committed round; any other event tells of its certificates. -/
theorem step_flow (ev : Event × Env) :
    (l.step ev).1.flow =
      match ev.1 with
      | .notifyCommitted round => l.flow.updateCommittedRound round
      | _ => l.flow.told ((l.toldBy ev).map (·.round)) := by
  cases hquiet : quiet ev.1 with
  | true =>
    rw [l.step_flow_of_quiet ev hquiet]
    obtain ⟨ev, env⟩ := ev
    cases ev <;> first | rfl | exact absurd hquiet (by simp [quiet])
  | false =>
    obtain ⟨ev, env⟩ := ev
    have hstart : ({ dag := l.dag, flow := l.flow, certs := [] } : Formed).Tells l.flow := rfl
    cases ev with
    | notifyCommitted round =>
      exact (step_collected (l := l) (m := l.markCommitted round) rfl).flow
    | gcTick => exact (step_collected (l := l) (m := l) rfl).flow
    | updateValidatorSet _ => rfl
    | voteCleanupTick => rfl
    | certificateMessage cert => exact l.handleCertificateMessage_flow env cert
    | syncResponse resp sender =>
      exact foldl_handleCertificateMessage_flow env _ (l.takeSyncResponse resp sender).2
    | voteMessage vote =>
      rw [toldBy_voteMessage]
      exact handleVote_tells hstart vote env.votes env.now
    | headerTick =>
      rw [toldBy_headerTick]
      exact tryCreateHeader_tells hstart _ env.votes env.now
    | _ => exact absurd hquiet (by simp [quiet])

/-! ## The gate along a run

Nothing is ever counted as pending, so the rounds alone decide, and the controller has the last of
either. -/

def told (past : Past BS CS TI) : List Certificate := past.flatMap fun e => e.1.toldBy e.2

def lastTold (past : Past BS CS TI) : UInt64 := ((told past).map (·.round)).getLast?.getD 0

/-- Those that verify under the validators of their time. -/
def verified (past : Past BS CS TI) : List Certificate :=
  past.flatMap fun e => (e.1.toldBy e.2).filter fun cert =>
    decide (cert.verify e.1.primary.validatorSet = .ok ())

def highestVerified (past : Past BS CS TI) : UInt64 :=
  ((verified past).map (·.round)).foldl max 0

theorem lastTold_append (past : Past BS CS TI) (l : Looseberry BS CS TI) (ev : Event × Env) :
    lastTold (past ++ [(l, ev)]) =
      ((l.toldBy ev).map (·.round)).getLast?.getD (lastTold past) := by
  have htold : told (past ++ [(l, ev)]) = told past ++ l.toldBy ev := by
    rw [told, List.flatMap_append, List.flatMap_singleton]
    rfl
  rw [lastTold, htold, List.map_append, List.getLast?_append, lastTold]
  cases ((l.toldBy ev).map (·.round)).getLast? <;> rfl

theorem follows_of_reach {maxRounds : UInt64} (hmax : 0 < maxRounds) {l : Looseberry BS CS TI}
    {past : Past BS CS TI}
    (h : PastReach (fun l => l.cfg.maxUncommittedRounds = maxRounds) (fun _ _ _ => True) l
      past) :
    l.flow.Follows maxRounds (lastTold past) (lastNotified past) := by
  refine Run.Reach.invariant
    (I := fun l past => l.flow.Follows maxRounds (lastTold past) (lastNotified past)) ?_ ?_ h
  · rintro l ⟨⟨cfg, vs, batchStore, certStore, txIndex, now, rfl⟩, rfl⟩
    exact FlowController.follows_new hmax
  · intro l past ev hl _
    show (l.step ev).1.flow.Follows maxRounds (lastTold (past ++ [(l, ev)]))
      (lastNotified (past ++ [(l, ev)]))
    have hnotified := notified_append past l ev
    rw [step_flow, lastTold_append]
    split
    · next round hev =>
        rw [hev] at hnotified
        have htold : l.toldBy ev = [] := by rw [toldBy, hev]
        rw [htold, lastNotified_concat hnotified]
        exact hl.updateCommittedRound round
    · next hother =>
        have hsame : notified (past ++ [(l, ev)]) = notified past := by
          rw [hnotified]
          split
          · next round hev => exact absurd hev (hother round)
          · exact List.append_nil _
        rw [lastNotified, hsame]
        exact hl.told _

omit [SliceSort] [BatchStore BS] [CertificateStore CS] in
theorem addTx_eq_flowControlPaused_iff (tx : Transaction) :
    (l.addTx tx).1 = .error .flowControlPaused ↔ l.flow.paused = true := by
  unfold addTx
  split
  · next hpaused => exact ⟨fun _ => hpaused, fun _ => rfl⟩
  · next hopen =>
      refine ⟨fun herr => ?_, fun hpaused => absurd hpaused hopen⟩
      exact absurd herr (l.pool.addTx_ne_flowControlPaused l.txIndex tx)

/-- A transaction is refused for flow control exactly if the certificate told last is too far
above the commit notified last. If that certificate is of the highest round of any verified
one, this is exactly if the highest round is. -/
theorem addTx_refused_iff {maxRounds : UInt64} (hmax : 0 < maxRounds)
    {l : Looseberry BS CS TI} {past : Past BS CS TI}
    (h : PastReach (fun l => l.cfg.maxUncommittedRounds = maxRounds) (fun _ _ _ => True) l past)
    (tx : Transaction) :
    ((l.addTx tx).1 = .error .flowControlPaused ↔
      (lastNotified past).toNat + maxRounds.toNat ≤ (lastTold past).toNat) ∧
    (lastTold past = highestVerified past →
      ((l.addTx tx).1 = .error .flowControlPaused ↔
        (lastNotified past).toNat + maxRounds.toNat ≤ (highestVerified past).toNat)) := by
  obtain ⟨hsettled, hcfg, hcurrent, hcommitted⟩ := follows_of_reach hmax h
  have hrefused : (l.addTx tx).1 = .error .flowControlPaused ↔
      (lastNotified past).toNat + maxRounds.toNat ≤ (lastTold past).toNat := by
    rw [addTx_eq_flowControlPaused_iff, hsettled.paused_iff (hcfg ▸ hmax), hcfg, hcurrent,
      hcommitted]
  exact ⟨hrefused, fun hlast => hlast ▸ hrefused⟩

end Looseberry

section

open IdealScheme

/-- Certificates in the order of their rounds, the last of them a hundred rounds above the
commit notified, which is then notified once more. -/
def steadyProgress : List Event :=
  [.certificateMessage (votedCertificate 1 0 [] []), .notifyCommitted 0,
    .certificateMessage (votedCertificate 2 50 [] []),
    .certificateMessage (votedCertificate 1 101 [] []), .notifyCommitted 1]

theorem addTx_refused_steadyProgress :
    ((idealPast 0 10 steadyProgress).1.addTx [1]).1 = .error .flowControlPaused ∧
      Looseberry.highestVerified (idealPast 0 10 steadyProgress).2 = 101 := by
  have hreach : Looseberry.PastReach (fun l => l.cfg.maxUncommittedRounds = 100)
      (fun _ _ _ => True) (idealPast 0 10 steadyProgress).1 (idealPast 0 10 steadyProgress).2 :=
    reach_idealPast rfl (.of_forall (fun _ _ _ => trivial) _ _ _)
  have htold : Looseberry.lastTold (idealPast 0 10 steadyProgress).2 = 101 := by decide +kernel
  have hhighest : Looseberry.highestVerified (idealPast 0 10 steadyProgress).2 = 101 := by
    decide +kernel
  have hnotified : Looseberry.lastNotified (idealPast 0 10 steadyProgress).2 = 1 := by
    decide +kernel
  refine ⟨?_, hhighest⟩
  refine ((Looseberry.addTx_refused_iff (by decide) hreach [1]).2 (htold.trans hhighest.symm)).mpr
    ?_
  rw [hnotified, hhighest]
  decide

/-- A certificate of round 100, and then one of round 0 once more. -/
def staleCertificate : List Event :=
  [.certificateMessage (votedCertificate 1 0 [] []),
    .certificateMessage (votedCertificate 1 100 [] []),
    .certificateMessage (votedCertificate 1 0 [] [])]

/-- A certificate of round 100 that nobody voted for. -/
def forgedCertificate : List Event :=
  [.certificateMessage (votedCertificate 1 0 [] []),
    .certificateMessage (idealCertificate (idealHeader 1 100 [] [] 0) [])]

/-- With nothing committed, the gate is open although a verified certificate is a hundred
rounds ahead, and closed although none is above round 0. -/
theorem flow_gate_misled :
    (Looseberry.lastNotified (idealPast 0 10 staleCertificate).2 = 0 ∧
      Looseberry.highestVerified (idealPast 0 10 staleCertificate).2 = 100 ∧
      ((idealPast 0 10 staleCertificate).1.addTx [1]).1 = .ok ()) ∧
    (Looseberry.lastNotified (idealPast 0 10 forgedCertificate).2 = 0 ∧
      Looseberry.highestVerified (idealPast 0 10 forgedCertificate).2 = 0 ∧
      ((idealPast 0 10 forgedCertificate).1.addTx [1]).1 = .error .flowControlPaused) := by
  refine ⟨⟨?_, ?_, ?_⟩, ⟨?_, ?_, ?_⟩⟩ <;> decide +kernel

end

end DagMempool
