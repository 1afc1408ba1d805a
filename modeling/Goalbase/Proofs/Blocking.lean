import Goalbase.Proofs.Starvation

/-!
# Goalbase.Proofs.Blocking

Where a conjunction blocks.

Pulls on a conjunction of goals on whose streams pulls return need not return: `and_responsive_iff`
says that they do exactly when the first goal's stream comes to an end or infinitely many items come
of it. A failure marker of the first goal is such an item. A state on which the second goal has an
empty stream is not, and `and_blocked` goes round such states for ever.
-/

namespace Goalbase

namespace Goal

variable {first second : Goal}

/-- Pulls on a conjunction return exactly when its first goal ends or infinitely many items come of
that goal: its markers and faults, and the items of the second goal on its live states. -/
theorem and_responsive_iff (h : ∀ s, (first.apply s).value.Responsive)
    (h' : ∀ s, (second.apply s).value.Responsive) (s : State) :
    ((and first second).apply s).value.Responsive ↔
      ((first.apply s).value.Unending →
        {o | ∃ i, Stream.Joined (fun n => (first.apply s).value.Nth n)
          (fun t k => (second.apply t).value.Nth k) o i}.Infinite) :=
  Stream.bind_responsive_iff (h s) h'

theorem or_nil_responsive (s : State) : ((or []).apply s).value.Responsive :=
  Stream.responsive_of_ends (Stream.ends_of_ended rfl)

theorem forever_responsive {g : Goal} (h : g.Stocked) (s : State) :
    ((forever g).apply s).value.Responsive := ((stocked_forever h).enumerated s).responsive

/-- Markers for ever pass a goal that answers nothing. -/
theorem and_responsive_marked : ((and (forever .fail) (.or [])).apply .empty).value.Responsive := by
  refine (and_responsive_iff (forever_responsive .fail) or_nil_responsive .empty).2 fun hu => ?_
  refine Set.infinite_of_injective_forall_mem (f := Sum.inl) Sum.inl_injective fun n => ?_
  obtain ⟨i, hi⟩ := hu n
  obtain ⟨d, hd⟩ := no_branch_starved (stocked_forever .fail) .empty
  obtain ⟨e, ⟨he, -⟩, -⟩ := hd.unique n i hi
  obtain ⟨_, _, hfail⟩ := he.exists_goal
  cases hfail
  exact ⟨none, .passed hi rfl⟩

/-- States for ever, none of which is answered: the first pull does not return. -/
theorem and_blocked :
    (∀ s, ((forever .succeed).apply s).value.Responsive)
      ∧ (∀ s, ((or []).apply s).value.Responsive)
      ∧ ¬((and (forever .succeed) (or [])).apply .empty).value.Returns := by
  have hfirst := forever_responsive .succeed
  refine ⟨hfirst, or_nil_responsive, ?_⟩
  have hprompt := Stream.Ledger.prompt_ofSource (hfirst .empty)
  rintro (he | ⟨i, u, hg⟩)
  · have hunending : ((forever .succeed).apply .empty).value.Unending :=
      endless_unending (fun _ => Stocked.succeed.enumerated .empty) 0
    exact Stream.Ledger.not_sourceUnending_of_ends or_nil_responsive hprompt he
      (Stream.Ledger.sourceUnending_ofSource.2 hunending)
  · obtain ⟨place, hplace⟩ := Stream.bind_nth_enumerates (hfirst .empty) or_nil_responsive
    obtain ⟨o, ⟨ho, -⟩, -⟩ := hplace.unique 0 i (.zero hg)
    cases ho with
    | @passed n _ hn hi =>
      obtain ⟨place, hplace⟩ := no_branch_starved (stocked_forever .succeed) .empty
      obtain ⟨d, ⟨hd, -⟩, -⟩ := hplace.unique n i hn
      obtain ⟨_, _, hlive⟩ := hd.exists_goal
      cases hlive
      cases hi
    | followed _ _ hnone => exact hnone.not_ends (Stream.ends_of_ended rfl)

end Goal

end Goalbase
