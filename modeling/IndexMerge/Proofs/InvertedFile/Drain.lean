import IndexMerge.InvertedFile.Sink
import IndexMerge.Proofs.Posting.Ascending
import IndexMerge.Proofs.Posting.Yield

/-!
# Draining a source

A source that yields a list which is emitted without failure is drained (`drain_of_yields`), and a
source that is drained has yielded such a list (`yields_of_drain`), whose documents ascend. So a
sink that drains what it stores has come to the end of its source (`Exhausts`).
-/

namespace IndexMerge

open PostingSource

variable {σ τ : Type} [PostingSource σ] {emit : Option UInt32 → Posting → Attempt Error τ Unit}

/-- Postings with ascending documents are emitted one after another, from one state to another. -/
def Emits (emit : Option UInt32 → Posting → Attempt Error τ Unit) :
    Option UInt32 → List Posting → τ → τ → Prop
  | _, [], state, state' => state = state'
  | last, p :: postings, state, state' => last.filter (p.docId ≤ ·) = none ∧
      ∃ next, emit last p state = (.ok (), next) ∧ Emits emit (some p.docId) postings next state'

theorem Emits.ascending {last : Option UInt32} {postings : List Posting} {state state' : τ}
    (h : Emits emit last postings state state') :
    isAscendingAfter last (postings.map Posting.docId) = true := by
  induction postings generalizing last state with
  | nil => exact isAscendingAfter_nil last
  | cons p postings ih =>
    obtain ⟨follows, next, _, h⟩ := h
    exact isAscendingAfter_cons.mpr ⟨follows, ih h⟩

theorem drain_eq (emit : Option UInt32 → Posting → Attempt Error τ Unit) (last : Option UInt32)
    (source : σ) (state : τ) :
    drain emit last source state = match next source with
      | (.ok none, source) => (.ok (), source, state)
      | (.error e, source) => (.error e, source, state)
      | (.ok (some p), source) =>
        match last.filter (p.docId ≤ ·) with
        | some last => (.error (.violation (.writtenOrder p.docId last)), source, state)
        | none =>
          match emit last p state with
          | (.ok (), state) => drain emit (some p.docId) source state
          | (.error e, state) => (.error e, source, state) := by
  rw [drain.eq_1]
  rcases next source with ⟨_ | _ | p, source'⟩ <;> rfl

section Answers

variable {last : Option UInt32} {source source' : σ} {state state' : τ} {p : Posting} {e : Error}

theorem drain_of_end (ended : next source = (.ok none, source')) :
    drain emit last source state = (.ok (), source', state) := by
  rw [drain_eq, ended]

theorem drain_of_error (failed : next source = (.error e, source')) :
    drain emit last source state = (.error e, source', state) := by
  rw [drain_eq, failed]

theorem drain_of_behind {before : UInt32} (given : next source = (.ok (some p), source'))
    (behind : last.filter (p.docId ≤ ·) = some before) :
    drain emit last source state =
      (.error (.violation (.writtenOrder p.docId before)), source', state) := by
  rw [drain_eq, given]
  simp only [behind]

theorem drain_of_emit (given : next source = (.ok (some p), source'))
    (follows : last.filter (p.docId ≤ ·) = none) (emitted : emit last p state = (.ok (), state')) :
    drain emit last source state = drain emit (some p.docId) source' state' := by
  rw [drain_eq, given]
  simp only [follows, emitted]

theorem drain_of_refusal (given : next source = (.ok (some p), source'))
    (follows : last.filter (p.docId ≤ ·) = none) (failed : emit last p state = (.error e, state')) :
    drain emit last source state = (.error e, source', state') := by
  rw [drain_eq, given]
  simp only [follows, failed]

end Answers

theorem drain_of_yields {last : Option UInt32} {source source' : σ} {postings : List Posting}
    {state state' : τ} (yields : Yields source postings source')
    (emits : Emits emit last postings state state') :
    drain emit last source state = (.ok (), source', state') := by
  induction postings generalizing last source state with
  | nil =>
    obtain rfl : state = state' := emits
    exact drain_of_end yields
  | cons p postings ih =>
    obtain ⟨source₁, given, yields⟩ := yields
    obtain ⟨follows, state₁, emitted, emits⟩ := emits
    rw [drain_of_emit given follows emitted]
    exact ih yields emits

/-- A source is drained up to the first posting whose document is not greater than the one before
it. -/
theorem drain_of_descent {last : Option UInt32} {source source' : σ} {front behind : List Posting}
    {p : Posting} {before : UInt32} {state state' : τ}
    (yields : Yields source (front ++ p :: behind) source')
    (emits : Emits emit last front state state')
    (previous : ((front.map Posting.docId).getLast?).or last = some before)
    (le : p.docId ≤ before) :
    ∃ source'', drain emit last source state =
      (.error (.violation (.writtenOrder p.docId before)), source'', state') := by
  induction front generalizing last source state with
  | nil =>
    obtain rfl : state = state' := emits
    obtain rfl : last = some before := previous
    obtain ⟨source₁, given, -⟩ := yields
    have behind : (some before).filter (p.docId ≤ ·) = some before := by
      rw [Option.filter_some, if_pos (by simpa using le)]
    exact ⟨source₁, drain_of_behind given behind⟩
  | cons q front ih =>
    obtain ⟨source₁, given, yields⟩ := yields
    obtain ⟨follows, state₁, emitted, emits⟩ := emits
    rw [List.map_cons, getLast?_cons_or] at previous
    rw [drain_of_emit given follows emitted]
    exact ih yields emits previous

theorem yields_of_drain {last : Option UInt32} {source source' : σ} {state state' : τ}
    (drained : drain emit last source state = (.ok (), source', state')) :
    ∃ postings, Yields source postings source' ∧ Emits emit last postings state state' := by
  fun_induction drain emit last source state with
  | case1 last source state source₁ asked =>
    cases drained
    exact ⟨[], asked, rfl⟩
  | case2 => cases drained
  | case3 => cases drained
  | case4 last source state p source₁ asked follows state₁ emitted ih =>
    obtain ⟨postings, yields, emits⟩ := ih drained
    exact ⟨p :: postings, ⟨source₁, asked, yields⟩, follows, state₁, emitted, emits⟩
  | case5 => cases drained

/-- What emitting a posting keeps, draining keeps, whether or not it succeeds. -/
theorem drain_keeps {P : τ → Prop} (step : ∀ last p state, P state → P (emit last p state).2)
    (last : Option UInt32) (source : σ) (state : τ) (h : P state) :
    P (drain emit last source state).2.2 := by
  fun_induction drain emit last source state with
  | case1 => exact h
  | case2 => exact h
  | case3 => exact h
  | case4 last source state p source₁ asked follows state₁ emitted ih =>
    have kept := step last p state h
    rw [emitted] at kept
    exact ih kept
  | case5 last source state p source₁ asked follows state₁ e failed =>
    have kept := step last p state h
    rwa [failed] at kept

/-- A sink that stores a list has come to the end of its source. -/
def Exhausts (S : Type) [PostingSink S] : Prop :=
  ∀ {σ : Type} [PostingSource σ] {source source' : σ} {s s' : S} {pointer : BitPosition},
    PostingSink.write source s = (.ok pointer, source', s') →
    ∃ postings, Yields source postings source'

end IndexMerge
