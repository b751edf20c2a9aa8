import Mathlib.Data.Finset.Card

/-!
# Counting votes up to a quorum

A ballot is opened once, collects the different voters that vote for it, and passes
when they are a quorum; what is cast afterwards, or when no ballot is open, makes no
difference. What becomes of a ballot therefore depends on the set of voters alone,
not on the order in which they vote or on how often: `castAll_after` is the rule for
a whole list of votes.
-/

/-- Not opened or given up, open with the voters so far, or passed. -/
inductive Ballot (α : Type) where
  | absent
  | opened (voters : Finset α)
  | passed

namespace Ballot

/-- The ballot after these have voted. -/
def after (quorum : Nat) (voters : Finset α) : Ballot α :=
  if quorum ≤ voters.card then .passed else .opened voters

variable {α : Type} [DecidableEq α]

def cast (quorum : Nat) (voter : α) : Ballot α → Ballot α
  | .absent => .absent
  | .opened voters =>
    if quorum ≤ (insert voter voters).card then .passed else .opened (insert voter voters)
  | .passed => .passed

theorem cast_after (quorum : Nat) (voter : α) (voters : Finset α) :
    (after quorum voters).cast quorum voter = after quorum (insert voter voters) := by
  unfold after
  by_cases h : quorum ≤ voters.card
  · have hle : quorum ≤ (insert voter voters).card :=
      Nat.le_trans h (Finset.card_le_card (Finset.subset_insert voter voters))
    rw [if_pos h, if_pos hle, cast]
  · rw [if_neg h, cast]

/-- A list of votes, one after the other. -/
def castAll (quorum : Nat) (votes : List α) (b : Ballot α) : Ballot α :=
  votes.foldl (fun b voter => b.cast quorum voter) b

theorem castAll_after (quorum : Nat) (votes : List α) (voters : Finset α) :
    (after quorum voters).castAll quorum votes = after quorum (votes.toFinset ∪ voters) := by
  induction votes generalizing voters with
  | nil => simp [castAll]
  | cons voter votes ih =>
    rw [castAll, List.foldl_cons, cast_after, ← castAll, ih, List.toFinset_cons,
      Finset.insert_union, Finset.union_insert]

theorem castAll_append (quorum : Nat) (votes votes' : List α) (b : Ballot α) :
    b.castAll quorum (votes ++ votes') = (b.castAll quorum votes).castAll quorum votes' :=
  List.foldl_append

end Ballot
