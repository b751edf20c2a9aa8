import DagMempool.Proofs.RoundAdvance

/-!
# Headers of one round

A header is of the round the primary is in when its timer ticks, and nothing in the
primary remembers that it has made a header for this round already. The timer does not
wait for the round to advance, and a primary that is started again is in round `0`,
whatever its store has. Two headers of one round are told apart by their time alone,
if not by more.

What keeps a primary from equivocating is the pace of the rounds: between two ticks that
have something to propose the round advances, and a primary that has proposed something
is not started again. Since a round never goes down otherwise, every header is then of a
higher round than the one before it.
-/

namespace DagMempool

namespace PrimarySystem

open PrimaryMark

variable [Crypto] {κ CS : Type} [CertificateStore CS] [SliceSort]

abbrev Step (κ CS : Type) : Type := PrimarySystem κ CS × PrimaryEvent × PrimaryEnv

omit [CertificateStore CS] [SliceSort] in
/-- A header tick of a running primary that has batches queued or may send empty headers. -/
def proposes (x : Step κ CS) : Bool :=
  match x.2.1 with
  | .headerTick _ => x.1.primary.running &&
      (!x.1.primary.batchDigests.isEmpty || x.1.primary.cfg.allowEmptyHeaders)
  | _ => false

def advances (callback : CertSink κ CS) (x : Step κ CS) : Bool :=
  decide (x.1.primary.currentRound < (step callback x.1 x.2).1.primary.currentRound)

/-- The round has advanced since the last tick that had something to propose, in it or
after it, if there was one. -/
def advancedSince (callback : CertSink κ CS) (past : List (Step κ CS)) : Bool :=
  past.foldl (fun advanced x => advances callback x || advanced && !proposes x) true

/-- A tick that has something to propose comes after an advance, a restart before any such
tick, and the number of the round can still grow. -/
def KeepsPace (callback : CertSink κ CS) (s : PrimarySystem κ CS) (past : List (Step κ CS))
    (ev : PrimaryEvent × PrimaryEnv) : Prop :=
  s.primary.currentRound.toNat + 1 < 2 ^ 64 ∧
    match ev.1 with
    | .headerTick _ => proposes (s, ev) = true → advancedSince callback past = true
    | .restart => past.any proposes = false
    | _ => True

instance (callback : CertSink κ CS) (s : PrimarySystem κ CS) (past : List (Step κ CS)) :
    ∀ ev, Decidable (KeepsPace callback s past ev)
  | (.headerTick _, _) => inferInstanceAs (Decidable (_ ∧ (_ = _ → _ = _)))
  | (.restart, _) => inferInstanceAs (Decidable (_ ∧ _ = _))
  | (.addBatchDigest _, _) | (.vote _, _) | (.header _ _, _) | (.certificate _, _)
  | (.advanceRound, _) | (.cleanup, _) => inferInstanceAs (Decidable (_ ∧ True))

theorem createdHeaders_step (callback : CertSink κ CS) (s : PrimarySystem κ CS)
    (ev : PrimaryEvent × PrimaryEnv) :
    createdHeaders (step callback s ev).2 = [] ∨
      proposes (s, ev) = true ∧ ∃ header, createdHeaders (step callback s ev).2 = [header] ∧
        header.round = s.primary.currentRound := by
  obtain ⟨event, env⟩ := ev
  cases event with
  | headerTick hasAckQuorum =>
    have hcreated : createdHeaders (step callback s (.headerTick hasAckQuorum, env)).2 =
        (s.primary.tryCreateHeader s.certStore callback.logged (s.sink, []) hasAckQuorum
          env.votes env.now).1.toList := by
      show createdHeaders (List.map _ _ ++ _) = _
      rw [createdHeaders_append, createdHeaders_certified]
      cases (s.primary.tryCreateHeader s.certStore callback.logged (s.sink, [])
        hasAckQuorum env.votes env.now).1 with
      | none => rfl
      | some header => rfl
    rw [hcreated]
    cases hout : (s.primary.tryCreateHeader s.certStore callback.logged (s.sink, [])
        hasAckQuorum env.votes env.now).1 with
    | none => exact .inl rfl
    | some header =>
      refine .inr ⟨?_, header, rfl, ?_⟩
      · unfold Primary.tryCreateHeader at hout
        split at hout
        · cases hout
        · next hrunning =>
            split at hout
            · cases hout
            · next hqueue =>
                show (_ && _) = true
                simp only [Bool.not_eq_true', Bool.not_eq_false, Bool.and_eq_true,
                  not_and] at hrunning hqueue
                cases hempty : s.primary.batchDigests.isEmpty with
                | true => simpa [hrunning] using hqueue hempty
                | false => simp [hrunning]
      · obtain ⟨rest, digests, hbuild⟩ := Primary.tryCreateHeader_eq_some hout
        obtain ⟨sig, -, rfl⟩ := Primary.buildHeader_eq_some hbuild
        rfl
  | addBatchDigest digest => exact .inl rfl
  | vote vote => exact .inl (createdHeaders_certified _)
  | header header available =>
    refine .inl ?_
    unfold step
    dsimp only
    split <;> rfl
  | certificate cert => exact .inl rfl
  | advanceRound => exact .inl rfl
  | cleanup =>
    refine .inl ?_
    show createdHeaders (List.map _ _) = []
    simp [createdHeaders, List.filterMap_map]
  | restart => exact .inl rfl

variable {callback : CertSink κ CS} {s : PrimarySystem κ CS} {past : List (Step κ CS)}
  {ev : PrimaryEvent × PrimaryEnv}

/-- The round does not go down, but for a restart. -/
theorem round_le_step (hround : s.primary.currentRound.toNat + 1 < 2 ^ 64)
    (hev : ev.1 ≠ .restart) :
    s.primary.currentRound ≤ (step callback s ev).1.primary.currentRound := by
  rcases step_forward callback s hev with heq | heq
  · rw [heq]
    exact UInt64.le_refl _
  · rw [heq, UInt64.le_iff_toNat_le, UInt64.toNat_add]
    simp only [UInt64.toNat_one]
    omega

/-! ## Rounds in ascending order

Along a run the headers made so far are in order of their rounds, with the current round above
them or equal to the last. -/

def madeIn (callback : CertSink κ CS) (past : List (Step κ CS)) : List Header :=
  past.flatMap fun x => createdHeaders (step callback x.1 x.2).2

/-- The headers are of rounds in ascending order, none above the current one, and below it
once the round has advanced. -/
structure Paced (callback : CertSink κ CS) (s : PrimarySystem κ CS) (past : List (Step κ CS)) :
    Prop where
  upTo : ∀ header ∈ madeIn callback past, header.round ≤ s.primary.currentRound
  below : advancedSince callback past = true →
    ∀ header ∈ madeIn callback past, header.round < s.primary.currentRound
  ascending : ((madeIn callback past).map (·.round)).Pairwise (· < ·)

theorem madeIn_eq_nil (h : past.any proposes = false) : madeIn callback past = [] := by
  refine List.flatMap_eq_nil_iff.mpr fun x hx => ?_
  refine (createdHeaders_step callback x.1 x.2).resolve_right fun hmade => ?_
  exact absurd hmade.1 (by simpa using List.any_eq_false.mp h x hx)

theorem step_paced (h : Paced callback s past) (hev : KeepsPace callback s past ev) :
    Paced callback (step callback s ev).1 (past ++ [(s, ev)]) := by
  obtain ⟨hround, hguard⟩ := hev
  have hmade : madeIn callback (past ++ [(s, ev)]) =
      madeIn callback past ++ createdHeaders (step callback s ev).2 := by
    simp [madeIn]
  have hsince : advancedSince callback (past ++ [(s, ev)]) =
      (advances callback (s, ev) || advancedSince callback past && !proposes (s, ev)) := by
    simp [advancedSince]
  by_cases hrestart : ev.1 = .restart
  · -- Nothing was made before the restart.
    obtain ⟨event, env⟩ := ev
    obtain rfl : event = .restart := hrestart
    have hnone : madeIn callback (past ++ [(s, (.restart, env))]) = [] := by
      rw [hmade, madeIn_eq_nil hguard]
      rfl
    constructor <;> simp [hnone]
  · have hle : s.primary.currentRound ≤ (step callback s ev).1.primary.currentRound :=
      round_le_step hround hrestart
    have hadvanced : advances callback (s, ev) = true →
        s.primary.currentRound < (step callback s ev).1.primary.currentRound :=
      of_decide_eq_true
    rcases createdHeaders_step callback s ev with hnone | ⟨hproposes, header, hone, hheader⟩
    · rw [hnone, List.append_nil] at hmade
      refine ⟨fun x hx => ?_, fun hopen x hx => ?_, ?_⟩
      · exact UInt64.le_trans (h.upTo x (hmade ▸ hx)) hle
      · rw [hsince, Bool.or_eq_true, Bool.and_eq_true] at hopen
        rcases hopen with hadv | ⟨hold, -⟩
        · exact UInt64.lt_of_le_of_lt (h.upTo x (hmade ▸ hx)) (hadvanced hadv)
        · exact UInt64.lt_of_lt_of_le (h.below hold x (hmade ▸ hx)) hle
      · rw [hmade]
        exact h.ascending
    · -- The headers made before are of lower rounds, the new one is of this round.
      have hbelow : ∀ x ∈ madeIn callback past, x.round < s.primary.currentRound := by
        obtain ⟨event, env⟩ := ev
        cases event with
        | headerTick hasAckQuorum => exact h.below (hguard hproposes)
        | _ => exact absurd hproposes (by simp [proposes])
      have hall : ∀ x ∈ madeIn callback (past ++ [(s, ev)]), x.round ≤ s.primary.currentRound := by
        intro x hx
        rw [hmade, hone] at hx
        rcases List.mem_append.mp hx with hold | hnew
        · exact UInt64.le_of_lt (hbelow x hold)
        · rw [List.mem_singleton.mp hnew, hheader]
          exact UInt64.le_refl _
      refine ⟨fun x hx => UInt64.le_trans (hall x hx) hle, fun hopen x hx => ?_, ?_⟩
      · rw [hsince, hproposes, Bool.not_true, Bool.and_false, Bool.or_false] at hopen
        exact UInt64.lt_of_le_of_lt (hall x hx) (hadvanced hopen)
      · rw [hmade, hone, List.map_append, List.pairwise_append]
        refine ⟨h.ascending, List.pairwise_singleton _ _, fun r hr r' hr' => ?_⟩
        obtain ⟨x, hx, rfl⟩ := List.mem_map.mp hr
        rw [List.mem_singleton.mp hr']
        show x.round < header.round
        rw [hheader]
        exact hbelow x hx

/-- In a run that keeps pace, headers are of higher and higher rounds, so that two headers
of one round are one header. -/
theorem headers_of_round_identical {me : UInt16} {signer : Signer} {cfg : PrimaryConfig}
    {vs : SimpleValidatorSet} (hs : Started me signer cfg vs s)
    {events : List (PrimaryEvent × PrimaryEnv)}
    (h : Run.AllOk (Run.history (step callback)) (KeepsPace callback) s [] events) :
    ((createdHeaders (Run.exec (step callback) s [] events).2).map (·.round)).Pairwise (· < ·) ∧
    ∀ h₁ ∈ createdHeaders (Run.exec (step callback) s [] events).2,
      ∀ h₂ ∈ createdHeaders (Run.exec (step callback) s [] events).2,
        h₁.round = h₂.round → h₁ = h₂ := by
  have hpaced : Paced callback (Run.exec (Run.history (step callback)) s [] events).1
      (Run.exec (Run.history (step callback)) s [] events).2 :=
    (Run.Reach.of_exec hs h).invariant (I := Paced callback)
      (fun _ _ => ⟨by simp [madeIn], by simp [madeIn], .nil⟩)
      fun _ _ _ hI hok => step_paced hI hok
  have hmade : createdHeaders (Run.exec (step callback) s [] events).2 =
      madeIn callback (Run.exec (Run.history (step callback)) s [] events).2 := by
    rw [Run.exec_eq_history, List.nil_append, createdHeaders, List.filterMap_flatMap]
    rfl
  rw [hmade]
  refine ⟨hpaced.ascending, fun h₁ hm₁ h₂ hm₂ heq => ?_⟩
  exact List.inj_on_of_nodup_map (hpaced.ascending.imp UInt64.ne_of_lt) hm₁ hm₂ heq

end PrimarySystem

section

open IdealScheme

def tickTwice : List PrimaryEvent := [.headerTick fun _ => true, .headerTick fun _ => true]

/-- The timer ticks again before anybody has voted: primary `0` has signed two headers
of round `0`. -/
theorem two_headers_in_one_round :
    ∃ (s : PrimarySystem Unit MemoryCertificateStore) (log : List PrimaryMark),
      Run.Reach
        (PrimarySystem.Started 0 (idealSigner 0) idealPrimaryConfig (idealValidators 4 0))
        (PrimarySystem.step idleSink) (fun _ _ _ => True) s log ∧
      ∃ h₁ ∈ PrimaryMark.createdHeaders log, ∃ h₂ ∈ PrimaryMark.createdHeaders log,
        h₁.round = h₂.round ∧ h₁ ≠ h₂ := by
  have hstart : PrimarySystem.Started 0 (idealSigner 0) idealPrimaryConfig
      (idealValidators 4 0) (idealPrimary ()) := rfl
  have hok : Run.AllOk (PrimarySystem.step idleSink) (fun _ _ _ => True)
      (idealPrimary ()) [] (idealPrimaryRun tickTwice) :=
    Run.AllOk.of_forall (fun _ _ _ => trivial) _ _ _
  have hcreated : PrimaryMark.createdHeaders (idealPrimaryExec idleSink () tickTwice).2 =
        [idealHeader 0 0 [] [] 1, idealHeader 0 0 [] [] 2] := by decide +kernel
  refine ⟨_, _, reach_idealPrimaryExec hstart hok, ?_⟩
  rw [hcreated]
  exact ⟨_, List.mem_cons_self, _, List.mem_cons_of_mem _ List.mem_cons_self, rfl,
    by decide +kernel⟩

/-- The primary makes a header, is sent the certificates of the others, and makes the
next one in the round after. -/
def headerThenRound : List PrimaryEvent :=
  .headerTick (fun _ => true) :: (votedRound 0).map .certificate ++
    [.headerTick fun _ => true]

theorem headers_of_round_identical_next_round :
    Run.AllOk (Run.history (PrimarySystem.step (idleSink : CertSink Unit MemoryCertificateStore)))
        (PrimarySystem.KeepsPace idleSink) (idealPrimary ()) []
        (idealPrimaryRun headerThenRound) ∧
      (PrimaryMark.createdHeaders (idealPrimaryExec idleSink () headerThenRound).2).map (·.round) =
        [0, 1] ∧
      ∀ h₁ ∈ PrimaryMark.createdHeaders (idealPrimaryExec idleSink () headerThenRound).2,
        ∀ h₂ ∈ PrimaryMark.createdHeaders (idealPrimaryExec idleSink () headerThenRound).2,
          h₁.round = h₂.round → h₁ = h₂ := by
  have hok : Run.AllOk (Run.history (PrimarySystem.step idleSink))
      (PrimarySystem.KeepsPace idleSink) (idealPrimary ()) []
      (idealPrimaryRun headerThenRound) := by decide +kernel
  have hstart : PrimarySystem.Started 0 (idealSigner 0) idealPrimaryConfig
      (idealValidators 4 0) (idealPrimary ()) := rfl
  exact ⟨hok, by decide +kernel, (PrimarySystem.headers_of_round_identical hstart hok).2⟩

end

end DagMempool
