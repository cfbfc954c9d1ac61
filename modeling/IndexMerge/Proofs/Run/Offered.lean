import IndexMerge.Proofs.Run.Mergeable
import IndexMerge.Proofs.Run.Spill
import IndexMerge.Proofs.Run.Totals

/-!
# Which terms a run takes

Terms with their postings are offered to a run one after another, and it takes those that may come
behind the ones that it took before (`admitted`). What is refused changes nothing of the run. In the
end it holds just what it took, counted by true statistics, and its header tells the truth about all
of it (`truthful_offered`), though the range of documents is taken from the first and the last
posting of each term alone.
-/

namespace IndexMerge

/-- The least and the greatest of some numbers, both zero if there are none. -/
structure IsRange (first last : UInt32) (numbers : List UInt32) : Prop where
  between : ∀ n ∈ numbers, first ≤ n ∧ n ≤ last
  attained : numbers ≠ [] → first ∈ numbers ∧ last ∈ numbers
  none : numbers = [] → first = 0 ∧ last = 0

/-- A header that tells the truth about the terms of a run and their postings. -/
structure RunHeader.Tells (index : Nat) (layout : Layout) (taken : List (Term × List Posting))
    (header : RunHeader) : Prop where
  runIndex : header.runIndex.toNat = index
  layout_eq : header.layout = layout
  termCount : header.termCount.toNat = taken.length
  range : IsRange header.firstDoc header.lastDoc
    (taken.flatMap fun next => next.2.map Posting.docId)
  postingCount : header.postingCount.toNat = total (taken.map (·.2.length))

/-- Postings of different documents are at most as many as there are documents. -/
theorem RunEntry.Sound.count_le {layout : Layout} {e : RunEntry} (sound : e.Sound layout) :
    e.postings.length ≤ UInt32.size := by
  have le := length_le_of_isAscending sound.ascending
  rwa [List.length_map] at le

namespace Run

variable {index : Nat} {layout : Layout} {run run' : Run} {taken : List (Term × List Posting)}
  {term : Term} {postings : List Posting}

/-- What a run takes behind what it took before. -/
structure Admits (layout : Layout) (taken : List (Term × List Posting)) (term : Term)
    (postings : List Posting) : Prop where
  length_le : term.length ≤ Term.maxLength
  follows : ∀ last ∈ taken.getLast?, last.1.precedes term = true
  nonempty : postings ≠ []
  fits : ∀ p ∈ postings, layout.check p = .ok ()
  ascending : postings.Pairwise (·.docId < ·.docId)

theorem admits_iff : Admits layout taken term postings ↔ term.length ≤ Term.maxLength ∧
    (∀ last ∈ taken.getLast?, last.1.precedes term = true) ∧ postings ≠ [] ∧
    (∀ p ∈ postings, layout.check p = .ok ()) ∧ postings.Pairwise (·.docId < ·.docId) :=
  ⟨fun h => ⟨h.length_le, h.follows, h.nonempty, h.fits, h.ascending⟩,
    fun ⟨short, follows, nonempty, fits, ascending⟩ =>
      ⟨short, follows, nonempty, fits, ascending⟩⟩

instance : Decidable (Admits layout taken term postings) := decidable_of_iff _ admits_iff.symm

/-- Of terms with postings that are offered one after another, those that a run takes. -/
def admitted (layout : Layout) (offers : List (Term × List Posting)) :
    List (Term × List Posting) :=
  offers.foldl (fun taken next =>
    if Admits layout taken next.1 next.2 then taken ++ [next] else taken) []

/-- The run after terms with postings were offered to it, whichever it refused. -/
def offered (offers : List (Term × List Posting)) (run : Run) : Run :=
  offers.foldl (fun run next => (offer next.1 next.2 run).2) run

/-- The terms that a run holds, with their postings. -/
def termLists (run : Run) : List (Term × List Posting) :=
  run.entries.toList.map fun e => (e.term, e.postings)

/-- A run that took some terms with postings: it holds these in order, counted by their
statistics. -/
structure Took (index : Nat) (layout : Layout) (taken : List (Term × List Posting))
    (run : Run) : Prop where
  index_eq : run.index = index
  layout_eq : run.layout = layout
  termLists_eq : run.termLists = taken
  statistics : ∀ e ∈ run.entries.toList, e.statistics.Counts layout e.postings

theorem admitted_concat (offers : List (Term × List Posting)) (next : Term × List Posting) :
    admitted layout (offers ++ [next]) =
      if Admits layout (admitted layout offers) next.1 next.2 then
        admitted layout offers ++ [next] else admitted layout offers :=
  List.foldl_append ..

theorem offered_concat (offers : List (Term × List Posting)) (next : Term × List Posting)
    (run : Run) :
    offered (offers ++ [next]) run = (offer next.1 next.2 (offered offers run)).2 :=
  List.foldl_append ..

/-- A run is left as it was by what it refuses. -/
theorem offer_error {e : Error} (refused : (offer term postings run).1 = .error e) :
    (offer term postings run).2 = run := by
  obtain ⟨-, -, adds⟩ | ⟨_, -, refuses⟩ := offer_cases term postings run
  · rw [adds] at refused
    cases refused
  · rw [refuses]

/-- What a run may take it takes behind the others. -/
theorem offer_of_admits (admits : Admits run.layout run.termLists term postings) :
    ∃ run', offer term postings run = (.ok (), run') ∧
      run'.termLists = run.termLists ++ [(term, postings)] := by
  have sound : RunEntry.Sound run.layout ⟨term, .ofPostings run.layout postings, postings⟩ :=
    ⟨admits.length_le, admits.nonempty, admits.fits,
      isAscending_iff_pairwise.mpr (List.pairwise_map.mpr admits.ascending), rfl⟩
  have pushed := push_of_sound sound fun last back =>
    admits.follows (last.term, last.postings) (by simp [termLists, back])
  exact ⟨_, Attempt.outcome_eq_ok.mp pushed, by simp [termLists]⟩

/-- A run takes just what may come next. -/
theorem admits_of_offer (added : offer term postings run = (.ok (), run')) :
    Admits run.layout run.termLists term postings := by
  obtain ⟨follows, fits, -⟩ := push_eq_ok (Attempt.outcome_eq_ok.mpr added)
  have ⟨short, last⟩ := checkTerm_eq_ok follows
  have ⟨nonempty, fits, ascending⟩ := checkPostings_eq_ok fits
  refine ⟨short, ?_, nonempty, fits, List.pairwise_map.mp (isAscending_iff_pairwise.mp ascending)⟩
  intro next found
  rw [termLists, List.getLast?_map, Array.getLast?_toList] at found
  obtain ⟨e, back, rfl⟩ := Option.map_eq_some_iff.mp found
  exact last e back

theorem offer_eq_ok_iff :
    (offer term postings run).1 = .ok () ↔ Admits run.layout run.termLists term postings := by
  constructor
  · exact fun took => admits_of_offer (Prod.ext took rfl)
  · intro admits
    obtain ⟨run', added, -⟩ := offer_of_admits admits
    rw [added]

/-- A run that is offered terms is built from those that it takes. -/
theorem built_offered (index : Nat) (layout : Layout) (offers : List (Term × List Posting)) :
    (offered offers (empty index layout)).Built index layout := by
  induction offers using List.reverseRecOn with
  | nil => exact .empty
  | append_singleton offers next ih =>
    rw [offered_concat]
    obtain ⟨-, -, adds⟩ | ⟨e, -, refuses⟩ :=
      offer_cases next.1 next.2 (offered offers (empty index layout))
    · rw [adds]
      exact .push ih (Attempt.outcome_eq_ok.mpr adds)
    · rwa [refuses]

/-- A run holds in order what it took of what it was offered. -/
theorem termLists_offered (index : Nat) (layout : Layout) (offers : List (Term × List Posting)) :
    (offered offers (empty index layout)).termLists = admitted layout offers := by
  induction offers using List.reverseRecOn with
  | nil => rfl
  | append_singleton offers next ih =>
    have same := (built_offered index layout offers).sound.layout_eq
    rw [offered_concat, admitted_concat, ← ih]
    generalize offered offers (empty index layout) = run at same ⊢
    by_cases admits : Admits layout run.termLists next.1 next.2
    · obtain ⟨run', added, lists⟩ := offer_of_admits (same.symm ▸ admits)
      rw [if_pos admits, added, lists]
    · rw [if_neg admits]
      rcases result : (offer next.1 next.2 run).1 with e | _
      · rw [offer_error result]
      · exact absurd (same ▸ admits_of_offer (Prod.ext result rfl)) admits

theorem took_offered (index : Nat) (layout : Layout) (offers : List (Term × List Posting)) :
    (offered offers (empty index layout)).Took index layout (admitted layout offers) := by
  have sound := (built_offered index layout offers).sound
  refine ⟨sound.index_eq, sound.layout_eq, termLists_offered index layout offers, ?_⟩
  intro e member
  have entry := sound.entries e member
  rw [entry.statistics_eq]
  exact TermStatistics.counts_ofPostings layout entry.count_le

/-- A run whose number and whose count of terms are words has a header. -/
theorem exists_header_iff : (∃ header, run.header = .ok header) ↔
    run.index < UInt32.size ∧ run.termLists.length < UInt32.size := by
  rw [termLists, List.length_map, Array.length_toList]
  constructor
  · rintro ⟨header, made⟩
    obtain ⟨index, terms, -⟩ := words_of_header made
    exact ⟨index, terms⟩
  · rintro ⟨index, terms⟩
    unfold Run.header
    simp [Nat.not_le_of_lt index, Nat.not_le_of_lt terms]

/-- The range of a run begins and ends with the least and the greatest document of all its
postings. -/
theorem isRange_docRange (sound : ∀ e ∈ run.entries.toList, e.Sound layout) :
    IsRange (run.docRange.getD (0, 0)).1 (run.docRange.getD (0, 0)).2
      (run.termLists.flatMap fun next => next.2.map Posting.docId) := by
  have documents : ∀ n, n ∈ (run.termLists.flatMap fun next => next.2.map Posting.docId) ↔
      ∃ e ∈ run.entries.toList, ∃ p ∈ e.postings, p.docId = n := by
    simp [termLists]
  cases entries : run.entries.toList with
  | nil =>
    rw [docRange_nil entries, termLists, entries]
    exact ⟨by simp, by simp, fun _ => ⟨rfl, rfl⟩⟩
  | cons first rest =>
    obtain ⟨range, found, -⟩ := docRange_isSome (e := first) sound (by simp [entries])
    have ⟨first, last⟩ := mem_of_docRange found
    have low := (documents range.1).mpr first
    have high := (documents range.2).mpr last
    rw [found]
    refine ⟨?_, fun _ => ⟨low, high⟩, fun none => ?_⟩
    · intro n member
      obtain ⟨e, listed, p, here, rfl⟩ := (documents n).mp member
      obtain ⟨_, same, between⟩ := docRange_bounds sound listed here
      cases found.symm.trans same
      exact between
    · rw [none] at low
      simp at low

/-- A header tells the truth about a run that was built. -/
theorem tells_header (sound : run.Sound index layout) {header : RunHeader}
    (made : run.header = .ok header) : header.Tells index layout run.termLists := by
  have ⟨short, few, _⟩ := words_of_header made
  have length : run.termLists.length = run.entries.size := by simp [termLists]
  have lengths : run.termLists.map (·.2.length) = run.entries.toList.map (·.postings.length) := by
    simp [termLists]
  -- fewer terms than words, and of each at most one posting for each document
  have bound : run.postingCount < UInt64.size := by
    have le : total (run.entries.toList.map (·.postings.length)) ≤
        run.entries.toList.length * UInt32.size :=
      total_map_le fun e member => (sound.entries e member).count_le
    have all : (UInt32.size - 1) * UInt32.size < UInt64.size := by decide
    have few : run.entries.toList.length * UInt32.size ≤ (UInt32.size - 1) * UInt32.size := by
      apply Nat.mul_le_mul_right
      rw [Array.length_toList]
      omega
    rw [postingCount_eq]
    omega
  unfold Run.header at made
  rw [if_neg (Nat.not_le_of_lt short), if_neg (Nat.not_le_of_lt few)] at made
  cases made
  constructor
  · exact (UInt32.toNat_ofNat_of_lt' short).trans sound.index_eq
  · exact sound.layout_eq
  · exact (UInt32.toNat_ofNat_of_lt' few).trans length.symm
  · exact isRange_docRange sound.entries
  · rw [lengths, ← postingCount_eq]
    exact UInt64.toNat_ofNat_of_lt' bound

/-- Terms with postings are offered to an empty run, one after another. The run takes a next one
just if its term is short enough and comes behind the last one taken, and it has postings, in the
order of their documents, that fit the layout; if not, the run stays as it was. The run then holds
what it took, in order, with statistics that count it. There is a header if the number of the run
and the count of terms are words, and the header tells the truth about what was taken: the number of
terms, the least and the greatest document of all postings, and the number of all postings, which
the statistics add up to as long as each list can be counted. -/
theorem truthful_offered (index : Nat) (layout : Layout) (offers : List (Term × List Posting)) :
    let taken := admitted layout offers
    let run := offered offers (empty index layout)
    (∀ term postings,
      ((offer term postings run).1 = .ok () ↔ Admits layout taken term postings) ∧
      ∀ e, (offer term postings run).1 = .error e → (offer term postings run).2 = run) ∧
    run.Took index layout taken ∧
    ((∃ header, run.header = .ok header) ↔
      index < UInt32.size ∧ taken.length < UInt32.size) ∧
    ∀ header, run.header = .ok header → header.Tells index layout taken ∧
      ((∀ next ∈ taken, next.2.length < UInt32.size) →
        header.postingCount.toNat =
          total (run.entries.toList.map (·.statistics.documentFrequency.toNat))) := by
  intro taken run
  have took : run.Took index layout taken := took_offered index layout offers
  have sound : run.Sound index layout := (built_offered index layout offers).sound
  refine ⟨fun term postings => ⟨?_, fun e => offer_error⟩, took, ?_, fun header made => ?_⟩
  · rw [offer_eq_ok_iff, took.layout_eq, took.termLists_eq]
  · rw [exists_header_iff, took.index_eq, took.termLists_eq]
  · have tells := tells_header sound made
    rw [took.termLists_eq] at tells
    refine ⟨tells, fun countable => ?_⟩
    rw [tells.postingCount, ← took.termLists_eq, termLists, List.map_map]
    congr 1
    refine List.map_congr_left fun e member => ?_
    have short := countable (e.term, e.postings) (by
      rw [← took.termLists_eq]
      exact List.mem_map_of_mem member)
    exact ((took.statistics e member).documents short).symm

/-- Of three terms the second one comes again and is refused, and the document range begins with
the last one. -/
example :
    let posting (docId : UInt32) : Posting := ⟨docId, 1, [], []⟩
    (offered [([97], [posting 3, posting 9]), ([97], [posting 0]), ([98], [posting 1])]
      (empty 7 ⟨0, false⟩)).header = .ok ⟨7, ⟨0, false⟩, 2, 1, 9, 3⟩ := by
  decide

end Run

end IndexMerge
