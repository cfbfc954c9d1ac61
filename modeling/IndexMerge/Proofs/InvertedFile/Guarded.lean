import IndexMerge.InvertedFile.InMemory
import IndexMerge.InvertedFile.Writer
import IndexMerge.Proofs.InvertedFile.Drain
import IndexMerge.Proofs.Quiet

/-!
# Guarded sources

A source may guard another: it gives what the other gives, in order, as long as it does not report
a fault that the other lets pass (`Guards`). Draining it, or writing it to a sink, then comes to
such a report or to what the other comes to, and the order of documents is not at fault
(`drain_guarded`, `Drains`).
-/

namespace IndexMerge

open Attempt PostingSource

variable {σ ρ τ : Type} [PostingSource σ] [PostingSource ρ]

/-- The first of two related sources gives what the second gives, in order behind a document, and
neither reports a violation, or the first makes a report. -/
def Guards (report : Error → Prop) (R : Option UInt32 → σ → ρ → Prop) : Prop :=
  ∀ {last s t}, R last s t → (∃ e, (next s).1 = .error e ∧ report e) ∨
    (next t).1 = (next s).1 ∧ (∀ v, (next s).1 ≠ .error (.violation v)) ∧
      ∀ p, (next s).1 = .ok (some p) →
        last.filter (p.docId ≤ ·) = none ∧ R (some p.docId) (next s).2 (next t).2

theorem CountedPostings.result_next (s : CountedPostings σ) :
    (next s).1 = (PostingSource.next s.inner).1 := by
  unfold next
  split <;> rename_i given <;> rw [given]

/-- Counting changes nothing of what is guarded. -/
theorem Guards.counted {report : Error → Prop} {R : Option UInt32 → σ → ρ → Prop}
    (guards : Guards report R) : Guards report
      fun last (s : CountedPostings σ) (t : CountedPostings ρ) => R last s.inner t.inner := by
  intro last s t related
  have result : ∀ {σ : Type} [PostingSource σ] (s : CountedPostings σ),
      (next s).1 = (next s.inner).1 := CountedPostings.result_next
  rcases guards related with ⟨e, failed, reports⟩ | ⟨same, other, ordered⟩
  · exact .inl ⟨e, (result s).trans failed, reports⟩
  · rw [result s, result t]
    refine .inr ⟨same, other, fun p given => ⟨(ordered p given).1, ?_⟩⟩
    show R (some p.docId) (CountedPostings.next s).2.inner (CountedPostings.next t).2.inner
    rw [CountedPostings.inner_next, CountedPostings.inner_next]
    exact (ordered p given).2

/-- Draining a source that guards another gives a report, or what draining the other gives, which is
no violation. -/
theorem drain_guarded {emit : Option UInt32 → Posting → Attempt Error τ Unit}
    {report : Error → Prop} {R : Option UInt32 → σ → ρ → Prop}
    (quiet : ∀ last p, (emit last p).Quiet) (guards : Guards report R) {last : Option UInt32}
    {s : σ} {t : ρ} (related : R last s t) (state : τ) :
    (∃ e, (drain emit last s state).1 = .error e ∧ report e) ∨
      (drain emit last t state).1 = (drain emit last s state).1 ∧
        ∀ v, (drain emit last s state).1 ≠ .error (.violation v) := by
  have answer := guards related
  fun_induction drain emit last s state generalizing t with
  | case1 last s state s' asked =>
    rw [asked] at answer
    rcases answer with ⟨e, failed, -⟩ | ⟨same, -, -⟩
    · cases failed
    · rw [drain_of_end (Prod.ext same rfl)]
      exact .inr ⟨rfl, by simp⟩
  | case2 last s state e s' asked =>
    rw [asked] at answer
    rcases answer with ⟨e', failed, reports⟩ | ⟨same, other, -⟩
    · cases failed
      exact .inl ⟨e, rfl, reports⟩
    · rw [drain_of_error (Prod.ext same rfl)]
      exact .inr ⟨rfl, fun v failed => other v (congrArg Except.error (Except.error.inj failed))⟩
  | case3 last s state p s' asked before behind =>
    rw [asked] at answer
    rcases answer with ⟨e, failed, -⟩ | ⟨-, -, ordered⟩
    · cases failed
    · rw [(ordered p rfl).1] at behind
      cases behind
  | case4 last s state p s' asked follows state' emitted ih =>
    rw [asked] at answer
    rcases answer with ⟨e, failed, -⟩ | ⟨same, -, ordered⟩
    · cases failed
    · rw [drain_of_emit (Prod.ext same rfl) follows emitted]
      have again : R (some p.docId) s' (next t).2 := (ordered p rfl).2
      exact ih again (guards again)
  | case5 last s state p s' asked follows e state' failed =>
    rw [asked] at answer
    rcases answer with ⟨e, failed, -⟩ | ⟨same, -, -⟩
    · cases failed
    · rw [drain_of_refusal (Prod.ext same rfl) follows failed]
      have other := quiet last p state
      rw [failed] at other
      exact .inr ⟨rfl, other⟩

/-- A sink to which a source that guards another is written with a report, or as the other is, which
is no violation. -/
structure Drains (S : Type) [PostingSink S] : Prop where
  write : ∀ {σ ρ : Type} [PostingSource σ] [PostingSource ρ] {report : Error → Prop}
    {R : Option UInt32 → σ → ρ → Prop}, Guards report R → ∀ {s : σ} {t : ρ}, R none s t →
    ∀ sink : S, (∃ e, (PostingSink.write s sink).1 = .error e ∧ report e) ∨
      (PostingSink.write t sink).1 = (PostingSink.write s sink).1 ∧
        ∀ v, (PostingSink.write s sink).1 ≠ .error (.violation v)

/-- A sink drains if what writing comes to can be told from what draining comes to, unless the sink
refuses every source. -/
theorem Drains.of_map {S : Type} [PostingSink S]
    (write : ∀ sink : S, (∃ e : Error, (∀ v, e ≠ .violation v) ∧ ∀ {σ : Type} [PostingSource σ]
        (source : σ), (PostingSink.write source sink).1 = .error e) ∨
      ∃ (τ : Type) (emit : Option UInt32 → Posting → Attempt Error τ Unit) (state : τ),
        (∀ last p, (emit last p).Quiet) ∧ ∀ {σ : Type} [PostingSource σ] (source : σ),
          (PostingSink.write source sink).1 =
            (drain emit none source state).1.map fun _ => PostingSink.position sink) :
    Drains S := by
  constructor
  intro σ ρ _ _ report R guards s t related sink
  obtain ⟨e, other, refuses⟩ | ⟨τ, emit, state, quiet, drained⟩ := write sink
  · rw [refuses, refuses]
    exact .inr ⟨rfl, fun v failed => other v (Except.error.inj failed)⟩
  · rw [drained, drained]
    rcases drain_guarded quiet guards related state with ⟨e, failed, reports⟩ | ⟨same, other⟩
    · rw [failed]
      exact .inl ⟨e, rfl, reports⟩
    · rw [same]
      refine .inr ⟨rfl, fun v failed => ?_⟩
      generalize (drain emit none s state).1 = result at other failed
      cases result with
      | error e => exact other v (congrArg Except.error (Except.error.inj failed))
      | ok done => cases failed

theorem ListSink.drains : Drains ListSink := by
  refine .of_map fun sink => ?_
  cases closed : sink.isClosed with
  | true =>
    refine .inl ⟨.operation .writeClosedSink, nofun, fun source => ?_⟩
    show (write source sink).1 = _
    rw [write, if_pos closed]
  | false =>
    refine .inr ⟨_, emit, #[], fun _ _ _ _ => nofun, fun source => ?_⟩
    show (write source sink).1 = _
    rw [write, if_neg (by simp [closed])]
    rcases drain emit none source #[] with ⟨_ | _, source', stored⟩ <;> rfl

namespace BitWriter

variable {W : Type} [ByteSink W]

theorem quiet_flush : Quiet (flush : Attempt Error (BitWriter W) Unit) := by
  intro w v
  unfold flush
  split
  · nofun
  · split <;> nofun

theorem quiet_writeBit (bit : Bool) :
    Quiet (writeBit bit : Attempt Error (BitWriter W) Unit) := by
  intro w v
  unfold writeBit
  split
  · nofun
  · dsimp only
    split
    · unfold stageByte
      dsimp only
      split
      · exact quiet_flush _ v
      · nofun
    · nofun

theorem quiet_writeCode (code : List Bool) :
    Quiet (writeCode code : Attempt Error (BitWriter W) Unit) := by
  induction code with
  | nil => exact fun _ _ => nofun
  | cons bit code ih =>
    intro w v
    have first := quiet_writeBit bit w v
    unfold writeCode
    split <;> rename_i written
    · exact ih _ v
    · rwa [written] at first

end BitWriter

theorem Layout.check_ne_violation (layout : Layout) (p : Posting) (v : Violation) :
    layout.check p ≠ .error (.violation v) := by
  unfold Layout.check
  repeat' split
  all_goals nofun

theorem PostingWriter.quiet_emit {W : Type} [ByteSink W] (layout : Layout) (last : Option UInt32)
    (p : Posting) : Quiet (emit layout last p : Attempt Error (BitWriter W) Unit) := by
  intro w v
  have fits := layout.check_ne_violation p v
  unfold emit
  split <;> rename_i checked
  · rw [checked] at fits
    exact fun failed => fits (congrArg Except.error (Except.error.inj failed))
  · exact BitWriter.quiet_writeCode _ w v

theorem PostingWriter.drains {W : Type} [ByteSink W] : Drains (PostingWriter W) := by
  refine .of_map fun w => ?_
  cases closed : w.isClosed with
  | true =>
    refine .inl ⟨.operation .writeClosedWriter, nofun, fun source => ?_⟩
    show (write source w).1 = _
    rw [write, if_pos closed]
  | false =>
    refine .inr ⟨_, emit w.layout, w.bits, quiet_emit w.layout, fun source => ?_⟩
    show (write source w).1 = _
    rw [write, if_neg (by simp [closed])]
    rcases drain (emit w.layout) none source w.bits with ⟨_ | _, source', bits⟩ <;> rfl

end IndexMerge
