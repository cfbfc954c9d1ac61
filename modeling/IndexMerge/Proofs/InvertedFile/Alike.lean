import IndexMerge.Proofs.InvertedFile.Retention
import IndexMerge.Proofs.Posting.Given

/-!
# Sinks that answer alike

A source is drained alike into two states if each of its postings is emitted alike
(`drain_alike`). So two writers that have written the same bits, through whatever buffers, take a
list alike (`PostingWriter.Twins.write`), and a sink in memory takes the lists of postings that fit
a layout as a writer over a sink that never fails does (`ListSink.write_alike`).
-/

namespace IndexMerge

open PostingSource

variable {σ τ τ' : Type} [PostingSource σ]

/-- If postings are emitted alike, a source that gives only such postings is drained alike. -/
theorem drain_alike {emit : Option UInt32 → Posting → Attempt Error τ Unit}
    {emit' : Option UInt32 → Posting → Attempt Error τ' Unit} {R : τ → τ' → Prop}
    {T : Posting → Prop} {may : σ → Posting → Prop} (mayGive : MayGive may)
    (same : ∀ last p state state', T p → R state state' →
      (emit' last p state').1 = (emit last p state).1 ∧
        R (emit last p state).2 (emit' last p state').2)
    (last : Option UInt32) (source : σ) (taken : ∀ p, may source p → T p) {state : τ}
    {state' : τ'} (related : R state state') :
    let left := drain emit last source state
    let right := drain emit' last source state'
    right.1 = left.1 ∧ right.2.1 = left.2.1 ∧ R left.2.2 right.2.2 := by
  fun_induction drain emit last source state generalizing state' with
  | case1 last source state source₁ asked =>
    rw [drain_of_end asked]
    exact ⟨rfl, rfl, related⟩
  | case2 last source state e source₁ asked =>
    rw [drain_of_error asked]
    exact ⟨rfl, rfl, related⟩
  | case3 last source state p source₁ asked before behind =>
    rw [drain_of_behind asked behind]
    exact ⟨rfl, rfl, related⟩
  | case4 last source state p source₁ asked follows state₁ emitted ih =>
    obtain ⟨answer, after⟩ := same last p state state' (taken p (mayGive.given asked)) related
    rw [emitted] at answer after
    rw [drain_of_emit asked follows (Prod.ext answer rfl)]
    have later : ∀ q, may (next source).2 q → T q := fun q given => taken q (mayGive.later given)
    rw [asked] at later
    exact ih later after
  | case5 last source state p source₁ asked follows e state₁ failed =>
    obtain ⟨answer, after⟩ := same last p state state' (taken p (mayGive.given asked)) related
    rw [failed] at answer after
    rw [drain_of_refusal asked follows (Prod.ext answer rfl)]
    exact ⟨rfl, rfl, after⟩

namespace PostingWriter

variable {W : Type} [ByteSink W] [FaithfulSink W] {w v : PostingWriter W}

/-- Two open writers of one layout over sinks that never fail have written the same bits. -/
structure Twins (w v : PostingWriter W) : Prop where
  isOpen : w.isClosed = false ∧ v.isClosed = false
  layout : w.layout = v.layout
  ready : w.bits.Ready ∧ v.bits.Ready
  written : w.bits.written = v.bits.written

theorem twins_start {sink : W} (fresh : Fresh sink) (capacity capacity' : Nat) (layout : Layout) :
    Twins (start capacity sink layout) (start capacity' sink layout) := by
  obtain ⟨left, written⟩ := BitWriter.ready_start capacity fresh
  obtain ⟨right, written'⟩ := BitWriter.ready_start capacity' fresh
  exact ⟨⟨rfl, rfl⟩, rfl, ⟨left, right⟩, written.trans written'.symm⟩

theorem Twins.position_eq (h : Twins w v) : w.position = v.position := by
  unfold position
  rw [BitWriter.position_eq h.ready.1, BitWriter.position_eq h.ready.2, h.written]

/-- A posting is emitted unless it does not fit. -/
theorem emit_alike {bits bits' : BitWriter W} (layout : Layout) (last : Option UInt32)
    (p : Posting) (ready : bits.Ready) (ready' : bits'.Ready) :
    (emit layout last p bits').1 = (emit layout last p bits).1 ∧
      (emit layout last p bits).2.Ready ∧ (emit layout last p bits').2.Ready ∧
      (bits.written = bits'.written →
        (emit layout last p bits).2.written = (emit layout last p bits').2.written) := by
  unfold emit
  cases layout.check p with
  | error e => exact ⟨rfl, ready, ready', id⟩
  | ok done =>
    obtain ⟨next, left, ready, written⟩ := BitWriter.writeCode_eq_ok ready (p.code layout last)
    obtain ⟨next', right, ready', written'⟩ :=
      BitWriter.writeCode_eq_ok ready' (p.code layout last)
    dsimp only
    rw [left, right]
    refine ⟨rfl, ready, ready', fun same => ?_⟩
    rw [written, written', same]

/-- Writers that have written the same bits take a list alike. -/
theorem Twins.write (h : Twins w v) (source : σ) :
    let left := PostingSink.write source w
    let right := PostingSink.write source v
    right.1 = left.1 ∧ right.2.1 = left.2.1 ∧ Twins left.2.2 right.2.2 := by
  have any : MayGive fun (_ : σ) (_ : Posting) => True := ⟨fun _ => trivial, fun _ => trivial⟩
  obtain ⟨answer, same, ready, ready', written⟩ := drain_alike (T := fun _ => True)
    (R := fun bits bits' : BitWriter W =>
      bits.Ready ∧ bits'.Ready ∧ bits.written = bits'.written)
    any (fun last p bits bits' _ related => by
      obtain ⟨answer, ready, ready', written⟩ := emit_alike w.layout last p related.1 related.2.1
      exact ⟨answer, ready, ready', written related.2.2⟩)
    none source (fun _ _ => trivial) ⟨h.ready.1, h.ready.2, h.written⟩
  have place := h.position_eq
  show (PostingWriter.write source v).1 = (PostingWriter.write source w).1 ∧
    (PostingWriter.write source v).2.1 = (PostingWriter.write source w).2.1 ∧
      Twins (PostingWriter.write source w).2.2 (PostingWriter.write source v).2.2
  unfold PostingWriter.write
  rw [if_neg (by simp [h.isOpen.2]), if_neg (by simp [h.isOpen.1]), ← h.layout]
  generalize drain (emit w.layout) none source w.bits = left at answer same ready ready' written ⊢
  generalize drain (emit w.layout) none source v.bits = right at answer same ready' written ⊢
  obtain ⟨result, after, bits⟩ := left
  obtain ⟨result', after', bits'⟩ := right
  obtain rfl : result' = result := answer
  obtain rfl : after' = after := same
  cases result' with
  | error e => exact ⟨rfl, rfl, h.isOpen, rfl, ⟨ready, ready'⟩, written⟩
  | ok done =>
    rw [place]
    exact ⟨rfl, rfl, h.isOpen, rfl, ⟨ready, ready'⟩, written⟩

/-- Closing writers that have written the same bits delivers the same bytes. -/
theorem Twins.close (h : Twins w v) :
    ∃ w' v', close w = (.ok (), w') ∧ close v = (.ok (), v') ∧
      FaithfulSink.content w'.bits.sink = FaithfulSink.content v'.bits.sink := by
  obtain ⟨bits, finished, content⟩ := BitWriter.finish_eq_ok h.ready.1
  obtain ⟨bits', finished', content'⟩ := BitWriter.finish_eq_ok h.ready.2
  refine ⟨{ w with bits, isClosed := true }, { v with bits := bits', isClosed := true }, ?_, ?_, ?_⟩
  · unfold PostingWriter.close
    rw [if_neg (by simp [h.isOpen.1]), finished]
  · unfold PostingWriter.close
    rw [if_neg (by simp [h.isOpen.2]), finished']
  · apply bytesBits_inj.mp
    rw [content, content', BitWriter.padded, BitWriter.padded, h.written]

end PostingWriter

/-- A source of postings that fit the layout is stored in memory as it is written over a sink that
never fails, apart from the place. -/
theorem ListSink.write_alike {W : Type} [ByteSink W] [FaithfulSink W] {layout : Layout}
    {may : σ → Posting → Prop} (mayGive : MayGive may) {source : σ}
    (fits : ∀ p, may source p → layout.check p = .ok ()) {s : ListSink} {w : PostingWriter W}
    (isOpen : s.isClosed = false) (works : (PostingWriter.retention W layout).Works w) :
    let left := PostingSink.write source s
    let right := PostingSink.write source w
    right.1.map (fun _ => ()) = left.1.map (fun _ => ()) ∧ right.2.1 = left.2.1 ∧
      left.2.2.isClosed = false := by
  obtain ⟨⟨isOpen', rfl, coherent⟩, never⟩ := works
  have emitted : ∀ last p (stored : Array Posting) (bits : BitWriter W),
      w.layout.check p = .ok () → bits.Ready →
      (PostingWriter.emit w.layout last p bits).1 = (ListSink.emit last p stored).1 ∧
        (PostingWriter.emit w.layout last p bits).2.Ready := by
    intro last p stored bits fits ready
    obtain ⟨bits', written, ready', -⟩ := BitWriter.writeCode_eq_ok ready (p.code w.layout last)
    unfold PostingWriter.emit
    rw [fits]
    dsimp only
    rw [written]
    exact ⟨rfl, ready'⟩
  have empty : (fun (_ : Array Posting) (bits : BitWriter W) => bits.Ready) #[] w.bits :=
    coherent.ready never
  obtain ⟨answer, same, -⟩ := drain_alike mayGive emitted none source fits empty
  show (PostingWriter.write source w).1.map _ = (ListSink.write source s).1.map _ ∧
    (PostingWriter.write source w).2.1 = (ListSink.write source s).2.1 ∧
      (ListSink.write source s).2.2.isClosed = false
  unfold PostingWriter.write ListSink.write
  rw [if_neg (by simp [isOpen']), if_neg (by simp [isOpen])]
  generalize drain ListSink.emit none source #[] = left at answer same ⊢
  generalize drain (PostingWriter.emit w.layout) none source w.bits = right at answer same ⊢
  obtain ⟨result, after, stored⟩ := left
  obtain ⟨result', after', bits⟩ := right
  obtain rfl : result' = result := answer
  obtain rfl : after' = after := same
  cases result' with
  | error e => exact ⟨rfl, rfl, isOpen⟩
  | ok done => exact ⟨rfl, rfl, isOpen⟩

end IndexMerge
