import IndexMerge.InvertedFile.InMemory
import IndexMerge.Lexicon.Entry
import IndexMerge.Posting.Layout
import IndexMerge.Proofs.InvertedFile.Drain
import IndexMerge.Term

/-!
# What sinks and dictionaries hold

A view of a sink says which lists it holds, and that it stores what a source yields behind them
(`SinkView`); a view of a dictionary says which entries it holds, and that it takes those that may
come next (`DictionaryView`). The views of sinks in memory are given here.
-/

namespace IndexMerge

open PostingSource

/-- How the lists that were stored can be told from a sink for postings of a layout. -/
structure SinkView (S : Type) [PostingSink S] (layout : Layout) where
  /-- The sink takes lists, and holds these in their order. -/
  Has : S → List (List Posting) → Prop
  /-- The sink was closed and holds these lists. -/
  Closed : S → List (List Posting) → Prop
  /-- Where the list behind others begins. -/
  place : List (List Posting) → BitPosition
  write : ∀ {σ : Type} [PostingSource σ] {source source' : σ} {postings : List Posting} {s : S}
    {lists : List (List Posting)}, Has s lists → Yields source postings source' →
    (∀ p ∈ postings, layout.check p = .ok ()) →
    isAscending (postings.map Posting.docId) = true →
    ∃ s', PostingSink.write source s = (.ok (place lists), source', s') ∧
      Has s' (lists ++ [postings])
  close : ∀ {s : S} {lists : List (List Posting)}, Has s lists →
    ∃ s', PostingSink.close s = (.ok (), s') ∧ Closed s' lists

/-- What an entry behind others has to be like: terms ascend, and entries are numbered. -/
structure LexiconEntry.Follows (layout : Layout) (entries : List LexiconEntry) (e : LexiconEntry) :
    Prop where
  length_le : e.term.length ≤ Term.maxLength
  fields : e.statistics.fieldFrequencies.length = layout.fieldCount.toNat
  placed : ∃ id pointer, e.statistics.termId = some id ∧ id.toNat = entries.length ∧
    e.statistics.pointer = some pointer
  last : ∀ last, entries.getLast? = some last → last.term.precedes e.term = true

/-- How the entries that were taken can be told from a dictionary of a layout. -/
structure DictionaryView (D : Type) [Dictionary D] (layout : Layout) where
  /-- The dictionary takes entries, and holds these in their order. -/
  Has : D → List LexiconEntry → Prop
  add : ∀ {d : D} {entries : List LexiconEntry} {e : LexiconEntry}, Has d entries →
    e.Follows layout entries → ∃ d', Dictionary.add e d = (.ok (), d') ∧ Has d' (entries ++ [e])

/-- A list of entries holds what was added to it. -/
def arrayView (layout : Layout) : DictionaryView (Array LexiconEntry) layout where
  Has d entries := d.toList = entries
  add := by
    intro d entries e has _
    exact ⟨d.push e, rfl, by rw [Array.toList_push, has]⟩

namespace ListSink

theorem emits_list {last : Option UInt32} {postings : List Posting} (stored : Array Posting)
    (ascending : isAscendingAfter last (postings.map Posting.docId) = true) :
    Emits emit last postings stored (stored ++ postings.toArray) := by
  induction postings generalizing last stored with
  | nil => simp [Emits]
  | cons p postings ih =>
    have ⟨follows, ascending⟩ := isAscendingAfter_cons.mp ascending
    have same : stored.push p ++ postings.toArray = stored ++ (p :: postings).toArray :=
      Array.ext' (by simp)
    exact ⟨follows, stored.push p, rfl, same ▸ ih (stored.push p) ascending⟩

/-- A sink in memory holds its lists, each at the place of its number. -/
def view (layout : Layout) : SinkView ListSink layout where
  Has s lists := s.lists.toList = lists ∧ s.isClosed = false
  Closed s lists := s.lists.toList = lists
  place lists := ⟨lists.length, 0⟩
  write := by
    intro σ _ source source' postings s lists ⟨has, isOpen⟩ yields _ ascending
    have ascending : isAscendingAfter none (postings.map Posting.docId) = true := ascending
    have drained := drain_of_yields yields (emits_list #[] ascending)
    refine ⟨{ s with lists := s.lists.push postings }, ?_, ?_, isOpen⟩
    · show ListSink.write source s = _
      simp only [ListSink.write, isOpen, drained, position, ← has]
      simp
    · rw [Array.toList_push, has]
  close := by
    intro s lists ⟨has, _⟩
    exact ⟨{ s with isClosed := true }, rfl, has⟩

theorem exhausts : Exhausts ListSink := by
  intro σ _ source source' s s' pointer written
  have written : write source s = _ := written
  unfold write at written
  split at written
  · cases written
  · split at written <;> cases written
    rename_i drained
    obtain ⟨postings, yields, -⟩ := yields_of_drain drained
    exact ⟨postings, yields⟩

/-- A list whose documents do not ascend is refused at the first fault, and nothing of it is
stored. -/
theorem write_of_descent {σ : Type} [PostingSource σ] {source source' : σ} {s : ListSink}
    {postings : List Posting} {last next : UInt32} (isOpen : s.isClosed = false)
    (yields : Yields source postings source')
    (descends : firstDescent (postings.map Posting.docId) = some (last, next)) :
    ∃ after, PostingSink.write source s =
      (.error (.violation (.writtenOrder next last)), after, s) := by
  obtain ⟨front, behind, docs, ascending, le⟩ := exists_of_firstDescent descends
  obtain ⟨stored, more, rfl, rfl, fromLast⟩ := List.map_eq_append_iff.mp docs
  obtain ⟨p, more, rfl, rfl, fromNext⟩ := List.map_eq_cons_iff.mp fromLast
  obtain ⟨q, more, rfl, rfl, -⟩ := List.map_eq_cons_iff.mp fromNext
  rw [List.append_cons] at yields
  have emits : Emits emit none (stored ++ [p]) #[] (#[] ++ (stored ++ [p]).toArray) := by
    refine emits_list #[] ?_
    rw [List.map_append]
    exact ascending
  obtain ⟨after, drained⟩ := drain_of_descent yields emits (by simp) le
  refine ⟨after, ?_⟩
  show ListSink.write source s = _
  simp only [ListSink.write, isOpen, drained]
  rfl

end ListSink

end IndexMerge
