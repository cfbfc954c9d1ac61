import IndexMerge.InvertedFile.Sink
import IndexMerge.Posting.Counted

/-!
# Watched sinks

A sink that works as the one behind it and writes down, for every list that it stored, where the
list begins and which postings were drawn from the source. So it can be told of any kind of sink
what was drained, apart from the count that a merge keeps itself; `write_cases` says that the two
agree.
-/

namespace IndexMerge

/-- A source, and the postings that it gave. -/
structure WatchedPostings (σ : Type) where
  inner : σ
  given : Array Posting

namespace WatchedPostings

variable {σ : Type} [PostingSource σ]

/-- The next posting, which is written down. -/
def next : Attempt Error (WatchedPostings σ) (Option Posting) := fun s =>
  match PostingSource.next s.inner with
  | (.ok (some p), inner) => (.ok (some p), ⟨inner, s.given.push p⟩)
  | (.ok none, inner) => (.ok none, ⟨inner, s.given⟩)
  | (.error e, inner) => (.error e, ⟨inner, s.given⟩)

instance : PostingSource (WatchedPostings σ) where
  next := next
  left s := PostingSource.left s.inner
  left_next := by
    intro s s' p h
    unfold next at h
    split at h
    · rename_i given
      cases h
      exact PostingSource.left_next given
    · cases h
    · cases h

theorem inner_next (s : WatchedPostings σ) :
    (next s).2.inner = (PostingSource.next s.inner).2 := by
  unfold next
  split <;> rename_i given <;> rw [given]

/-- A source that counts and is watched counts just the postings that were seen. -/
theorem count_next {before : Nat} (s : WatchedPostings (CountedPostings σ))
    (counted : s.inner.count = before + s.given.size) :
    (PostingSource.next s).2.inner.count = before + (PostingSource.next s).2.given.size := by
  show (next s).2.inner.count = before + (next s).2.given.size
  have asked : PostingSource.next s.inner = CountedPostings.next s.inner := rfl
  unfold next
  rw [asked]
  unfold CountedPostings.next
  rcases PostingSource.next s.inner.inner with ⟨e | _ | p, inner⟩
  · exact counted
  · exact counted
  · simp only [Array.size_push]
    omega

end WatchedPostings

/-- A sink, and for every list that it stored its place and the postings that were drawn for it. -/
structure WatchedSink (S : Type) where
  inner : S
  drained : Array (BitPosition × List Posting)

namespace WatchedSink

variable {S : Type} [PostingSink S]

/-- Stores a list in the sink behind. If that succeeds, the postings that were drawn for it are
written down. -/
def write {σ : Type} [PostingSource σ] (source : σ) (s : WatchedSink S) :
    Except Error BitPosition × σ × WatchedSink S :=
  match PostingSink.write (⟨source, #[]⟩ : WatchedPostings σ) s.inner with
  | (.ok place, source, inner) =>
    (.ok place, source.inner, ⟨inner, s.drained.push (place, source.given.toList)⟩)
  | (.error e, source, inner) => (.error e, source.inner, { s with inner })

instance : PostingSink (WatchedSink S) where
  write := write
  position s := PostingSink.position s.inner
  close s :=
    let (result, inner) := PostingSink.close s.inner
    (result, { s with inner })
  write_source := by
    intro σ _ P step source sink h
    have kept := PostingSink.write_source (P := fun s : WatchedPostings σ => P s.inner)
      (fun s held => by
        show P (WatchedPostings.next s).2.inner
        rw [WatchedPostings.inner_next]
        exact step s.inner held) ⟨source, #[]⟩ sink.inner h
    unfold write
    split <;> rename_i written <;> rwa [written] at kept

/-- A list that is stored is written down, with as many postings as its source counted meanwhile;
what was written down before stays. -/
theorem write_cases {σ : Type} [PostingSource σ] (source : CountedPostings σ) (s : WatchedSink S) :
    (∃ e, (PostingSink.write source s).1 = .error e) ∧
        (PostingSink.write source s).2.2.drained = s.drained ∨
      ∃ place list, (PostingSink.write source s).1 = .ok place ∧
        (PostingSink.write source s).2.2.drained = s.drained.push (place, list) ∧
        (PostingSink.write source s).2.1.count = source.count + list.length := by
  have counted := PostingSink.write_source
    (P := fun t : WatchedPostings (CountedPostings σ) =>
      t.inner.count = source.count + t.given.size)
    (fun t => t.count_next) ⟨source, #[]⟩ s.inner rfl
  show (∃ e, (write source s).1 = .error e) ∧ (write source s).2.2.drained = s.drained ∨
    ∃ place list, (write source s).1 = .ok place ∧
      (write source s).2.2.drained = s.drained.push (place, list) ∧
      (write source s).2.1.count = source.count + list.length
  unfold write
  split <;> rename_i written <;> rw [written] at counted
  · exact .inr ⟨_, _, rfl, rfl, by rw [Array.length_toList]; exact counted⟩
  · exact .inl ⟨⟨_, rfl⟩, rfl⟩

end WatchedSink

end IndexMerge
