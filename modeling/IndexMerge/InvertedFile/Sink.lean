import IndexMerge.Posting.Source
import IndexMerge.Bits.Position

/-!
# Posting sinks

Where the posting lists of an index are stored, one list after another. A sink drains a source into
a list whose documents ascend and says where the list begins. It does nothing to the source but ask
it for postings: `write_source` says so for every property that a source keeps when it is asked.
-/

namespace IndexMerge

/-- Hands the postings of a source to `emit`, each with the document before it, as long as
documents ascend and nothing fails. -/
def drain {σ τ : Type} [PostingSource σ] (emit : Option UInt32 → Posting → Attempt Error τ Unit)
    (last : Option UInt32) (source : σ) (state : τ) : Except Error Unit × σ × τ :=
  match _h : PostingSource.next source with
  | (.ok none, source) => (.ok (), source, state)
  | (.error e, source) => (.error e, source, state)
  | (.ok (some p), source') =>
    match last.filter (p.docId ≤ ·) with
    | some last => (.error (.violation (.writtenOrder p.docId last)), source', state)
    | none =>
      match emit last p state with
      | (.ok (), state) => drain emit (some p.docId) source' state
      | (.error e, state) => (.error e, source', state)
termination_by PostingSource.left source
decreasing_by exact PostingSource.left_next _h

theorem drain_source {σ τ : Type} [PostingSource σ] {P : σ → Prop}
    (step : ∀ s, P s → P (PostingSource.next s).2)
    (emit : Option UInt32 → Posting → Attempt Error τ Unit) (last : Option UInt32) (source : σ)
    (state : τ) (h : P source) : P (drain emit last source state).2.1 := by
  have asked := step source h
  fun_induction drain emit last source state <;> simp_all

/-- Something that stores posting lists. -/
class PostingSink (S : Type) where
  /-- Stores what a source gives as one list and says where it begins. The source is given back
  as far as it was read. -/
  write : {σ : Type} → [PostingSource σ] → σ → S → Except Error BitPosition × σ × S
  /-- Where the next list will begin. -/
  position : S → BitPosition
  /-- Says that there are no more lists. -/
  close : Attempt Error S Unit
  /-- What a source keeps when it is asked, it keeps when it is stored. -/
  write_source : ∀ {σ : Type} [PostingSource σ] {P : σ → Prop},
    (∀ s, P s → P (PostingSource.next s).2) →
    ∀ source sink, P source → P (write source sink).2.1

end IndexMerge
