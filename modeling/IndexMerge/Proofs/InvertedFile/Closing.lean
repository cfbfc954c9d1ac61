import IndexMerge.Proofs.InvertedFile.Readback

/-!
# Closing a posting writer

Lists and closes may come in any order, and any delivery and any seal may fail. Only the first close
does anything. If it succeeds, the sink holds all bits that were written, filled with zeros, and was
sealed (`Secured`), and nothing changes any more. If it fails, every close behind it succeeds all
the same (`close_of_isClosed`), so a close shows that the lists are safe only if no other one failed
before (`secured_of_closes`).
-/

namespace IndexMerge

open FaithfulSink PostingSource

namespace BitWriter

variable {W : Type} [ByteSink W] [FaithfulSink W] {w closed : BitWriter W}

/-- All that a writer has written is in its sink, which has been sealed with success. -/
structure Secured (w : BitWriter W) : Prop extends w.Closed where
  finished : ∃ unsealed, content unsealed = content w.sink ∧
    ByteSink.finish unsealed = (.ok (), w.sink)

/-- Finishing with success has sealed the sink with success. -/
theorem seal_of_finish (done : finish w = (.ok (), closed)) :
    ∃ unsealed, content unsealed = content closed.sink ∧
      ByteSink.finish unsealed = (.ok (), closed.sink) := by
  obtain ⟨-, padded, -, rest⟩ := Attempt.bind_eq_ok.mp done
  obtain ⟨-, flushed, -, rest⟩ := Attempt.bind_eq_ok.mp rest
  have same := content_finish flushed.sink
  rcases result : ByteSink.finish flushed.sink with ⟨fault | _, sink⟩ <;>
    rw [result] at rest same <;> cases rest
  exact ⟨flushed.sink, same.symm, result⟩

/-- Finishing with success secures what was written, filled with zeros. -/
theorem Coherent.secured_of_finish (h : w.Coherent) (done : finish w = (.ok (), closed)) :
    closed.Secured ∧ bytesBits (content closed.sink) = w.padded := by
  obtain ⟨isClosed, delivered⟩ := content_of_finish h done
  exact ⟨⟨isClosed, seal_of_finish done⟩, delivered⟩

/-- A closed writer has no unfinished byte. -/
theorem Closed.padded_eq (h : w.Closed) : w.padded = bytesBits (content w.sink) := by
  have whole : padding (8 * (content w.sink).length) = 0 := by
    rw [padding, Nat.mul_mod_right]
  rw [padded, h.written_eq, length_bytesBits, whole, List.replicate_zero, List.append_nil]

end BitWriter

namespace PostingWriter

/-- A call of a writer. -/
inductive Call where
  | write (source : AnySource)
  | close

/-- Whether a call is a close. -/
def Call.isClose : Call → Bool
  | .write _ => false
  | .close => true

variable {W : Type} [ByteSink W]

/-- Calls a writer. A list that is written is answered with its place. -/
def perform : Call → Attempt Error (PostingWriter W) (Option BitPosition)
  | .write next => fun w =>
    let answer := write next.source w
    (answer.1.map some, answer.2.2)
  | .close => fun w => ((close w).1.map fun _ => none, (close w).2)

/-- Calls a writer again and again, whatever fails. -/
def performAll : List Call → PostingWriter W →
    List (Except Error (Option BitPosition)) × PostingWriter W
  | [], w => ([], w)
  | call :: calls, w =>
    let (result, w) := perform call w
    let (results, w) := performAll calls w
    (result :: results, w)

/-- No close among the calls failed. -/
def NoCloseFails (calls : List Call) (results : List (Except Error (Option BitPosition))) : Prop :=
  ∀ answer ∈ calls.zip results, answer.1.isClose = true → answer.2 = .ok none

/-- What a closed writer answers. -/
def answerClosed : Call → Except Error (Option BitPosition)
  | .write _ => .error (.operation .writeClosedWriter)
  | .close => .ok none

theorem close_of_isClosed {w : PostingWriter W} (isClosed : w.isClosed = true) :
    close w = (.ok (), w) := if_pos isClosed

theorem isClosed_close (w : PostingWriter W) : (close w).2.isClosed = true := by
  unfold close
  by_cases isClosed : w.isClosed = true
  · rw [if_pos isClosed]
    exact isClosed
  · rw [if_neg isClosed]
    rfl

/-- A closed writer stays as it is. -/
theorem perform_of_isClosed {w : PostingWriter W} (isClosed : w.isClosed = true) (call : Call) :
    perform call w = (answerClosed call, w) := by
  cases call with
  | write next =>
    have refused : write next.source w =
        (.error (.operation .writeClosedWriter), next.source, w) := if_pos isClosed
    simp only [perform, refused]
    rfl
  | close =>
    simp only [perform, close_of_isClosed isClosed]
    rfl

theorem performAll_of_isClosed {w : PostingWriter W} (isClosed : w.isClosed = true)
    (calls : List Call) : performAll calls w = (calls.map answerClosed, w) := by
  induction calls with
  | nil => rfl
  | cons call calls ih => simp only [performAll, perform_of_isClosed isClosed, ih, List.map_cons]

variable [FaithfulSink W] {layout : Layout}

/-- The writer takes lists, or it was closed and its lists are safe. -/
def Safe (layout : Layout) (w : PostingWriter W) : Prop :=
  (looseRetention W layout).Works w ∨ w.isClosed = true ∧ w.bits.Secured

/-- A close that succeeds secures all bits that were written, filled with zeros. -/
theorem Safe.secured_of_close {w closed : PostingWriter W} (h : Safe layout w)
    (done : close w = (.ok (), closed)) :
    closed.isClosed = true ∧ closed.bits.Secured ∧
      bytesBits (content closed.bits.sink) = w.bits.padded := by
  have isClosed : closed.isClosed = true := by
    have := isClosed_close w
    rwa [done] at this
  refine ⟨isClosed, ?_⟩
  obtain ⟨isOpen, -, coherent⟩ | ⟨already, secured⟩ := h
  · unfold close at done
    rw [if_neg (by simp [isOpen])] at done
    rcases finished : BitWriter.finish w.bits with ⟨_, bits⟩
    rw [finished] at done
    cases done
    exact coherent.secured_of_finish finished
  · rw [close_of_isClosed already] at done
    cases done
    exact ⟨secured, secured.padded_eq.symm⟩

/-- Only a close that fails makes a writer unsafe. -/
theorem Safe.after_perform {w : PostingWriter W} (h : Safe layout w) (call : Call)
    (succeeds : call.isClose = true → (perform call w).1 = .ok none) :
    Safe layout (perform call w).2 := by
  cases call with
  | write next =>
    obtain works | ⟨isClosed, secured⟩ := h
    · exact Or.inl ((looseRetention W layout).works next.source works)
    · rw [perform_of_isClosed isClosed]
      exact Or.inr ⟨isClosed, secured⟩
  | close =>
    have done : close w = (.ok (), (close w).2) := by
      have result : (close w).1.map (fun _ => none) = .ok none := succeeds rfl
      rcases answer : close w with ⟨e | _, closed⟩
      · rw [answer] at result
        cases result
      · rfl
    obtain ⟨isClosed, secured, -⟩ := h.secured_of_close done
    exact Or.inr ⟨isClosed, secured⟩

theorem Safe.after_performAll {w : PostingWriter W} (h : Safe layout w) (calls : List Call)
    (succeed : NoCloseFails calls (performAll calls w).1) :
    Safe layout (performAll calls w).2 := by
  induction calls generalizing w with
  | nil => exact h
  | cons call calls ih =>
    exact ih (h.after_perform call (succeed _ List.mem_cons_self))
      fun answer member => succeed answer (List.mem_cons_of_mem _ member)

/-- The code of a list stays where it is, whatever is called. -/
theorem Safe.codes_perform {w : PostingWriter W} (h : Safe layout w) (call : Call)
    {place : BitPosition} {list : List Posting} (codes : Codes layout w.bits.written place list) :
    Codes layout (perform call w).2.bits.written place list := by
  obtain works | ⟨isClosed, -⟩ := h
  · cases call with
    | write next => exact (looseRetention W layout).retains next.source works codes
    | close =>
      obtain ⟨isOpen, -, coherent⟩ := works
      have filled : (close w).2.bits.written = w.bits.padded := by
        unfold close
        rw [if_neg (by simp [isOpen])]
        exact (BitWriter.finish_keeps coherent).1
      show Codes layout (close w).2.bits.written place list
      rw [filled]
      exact codes.append _
  · rw [perform_of_isClosed isClosed]
    exact codes

theorem Safe.codes_performAll {w : PostingWriter W} (h : Safe layout w) (calls : List Call)
    (succeed : NoCloseFails calls (performAll calls w).1) {place : BitPosition}
    {list : List Posting} (codes : Codes layout w.bits.written place list) :
    Codes layout (performAll calls w).2.bits.written place list := by
  induction calls generalizing w with
  | nil => exact codes
  | cons call calls ih =>
    exact ih (h.after_perform call (succeed _ List.mem_cons_self))
      (fun answer member => succeed answer (List.mem_cons_of_mem _ member))
      (h.codes_perform call codes)

/-- A call that was answered with a place has written what its source yields there. -/
def Wrote (layout : Layout) (written : List Bool) :
    Call → Except Error (Option BitPosition) → Prop
  | .write next, .ok (some place) =>
    ∃ list after, Yields next.source list after ∧ Codes layout written place list
  | _, _ => True

theorem Safe.wrote_perform {w : PostingWriter W} (h : Safe layout w) (call : Call) :
    Wrote layout (perform call w).2.bits.written call (perform call w).1 := by
  cases call with
  | close => trivial
  | write next =>
    obtain works | ⟨isClosed, -⟩ := h
    · rcases answer : write next.source w with ⟨e | place, source, w'⟩ <;>
        simp only [perform, answer]
      · trivial
      · obtain ⟨list, yields, -, codes⟩ := (looseRetention W layout).write works answer
        exact ⟨list, source, yields, codes⟩
    · rw [perform_of_isClosed isClosed]
      trivial

theorem Safe.wrote_performAll {w : PostingWriter W} (h : Safe layout w) (calls : List Call)
    (succeed : NoCloseFails calls (performAll calls w).1) :
    List.Forall₂ (Wrote layout (performAll calls w).2.bits.written) calls
      (performAll calls w).1 := by
  induction calls generalizing w with
  | nil => exact .nil
  | cons call calls ih =>
    have next := h.after_perform call (succeed _ List.mem_cons_self)
    have others : NoCloseFails calls (performAll calls (perform call w).2).1 :=
      fun answer member => succeed answer (List.mem_cons_of_mem _ member)
    refine .cons ?_ (ih next others)
    have first := h.wrote_perform call
    show Wrote layout (performAll calls (perform call w).2).2.bits.written call (perform call w).1
    cases call with
    | close => trivial
    | write source =>
      rcases answer : (perform (.write source) w).1 with e | _ | place
      · trivial
      · trivial
      · rw [answer] at first
        obtain ⟨list, after, yields, codes⟩ := first
        exact ⟨list, after, yields, next.codes_performAll calls others codes⟩

/-- Lists are written over a sink that keeps nothing of a delivery that fails, in any layout and
with any capacity. There are closes among them, and any deliveries and seals may fail. A close that
succeeds shows that the sink holds all bits written so far, filled with zeros, and that it was
sealed with success, if no close before it failed; then every list that could be written is read
back from its place in what the sink holds. A close is final whether or not it succeeds: behind it
nothing changes any more, no list is written, and every further close succeeds. -/
theorem secured_of_closes {sink : W} (atomic : Atomic sink) (empty : content sink = [])
    (layout : Layout) (capacity : Nat) (calls : List Call) :
    let (results, w) := performAll calls (start capacity sink layout)
    (NoCloseFails calls results → ∀ closed, close w = (.ok (), closed) →
      bytesBits (content closed.bits.sink) = w.bits.padded ∧ closed.bits.Secured ∧
      List.Forall₂ (fun call result => ∀ next place, call = .write next →
        result = .ok (some place) → ∃ list after, Yields next.source list after ∧
          readPostings (content closed.bits.sink).toArray place list.length layout = .ok list)
        calls results) ∧
    ∀ later, performAll later (close w).2 = (later.map answerClosed, (close w).2) := by
  have begun : Safe layout (start capacity sink layout) :=
    Or.inl (loose_start capacity atomic empty)
  refine ⟨fun succeed closed done => ?_, performAll_of_isClosed (isClosed_close _)⟩
  obtain ⟨-, secured, delivered⟩ := (begun.after_performAll calls succeed).secured_of_close done
  refine ⟨delivered, secured, ?_⟩
  refine (begun.wrote_performAll calls succeed).imp fun call result wrote next place => ?_
  rintro rfl rfl
  obtain ⟨list, after, yields, codes⟩ := wrote
  have codes : Codes layout (performAll calls (start capacity sink layout)).2.bits.padded place
      list := codes.append _
  rw [← delivered] at codes
  exact ⟨list, after, yields, codes.readPostings_eq_ok⟩

/-- A sink of which the first delivery fails. -/
def deafSink : Recorder := .start (· == 0) fun _ => false

/-- A list and two closes. -/
def listThenCloses (docId : UInt32) : List Call :=
  [.write (.ofList [⟨docId, 1, [], []⟩]), .close, .close]

/-- A delivery fails in the middle of the list's code. The close repeats it with success, and the
sink holds what there is of the code. -/
theorem secured_of_closes_deafSink :
    let (results, w) := performAll (listThenCloses 1000) (start 2 deafSink ⟨0, false⟩)
    results = [.error (.io "writing bit stream" .deviceLost), .ok none, .ok none] ∧
      content w.bits.sink = [0, 125] ∧ bytesBits (content w.bits.sink) = w.bits.padded ∧
      w.bits.Secured := by
  have succeed : NoCloseFails (listThenCloses 1000)
      (performAll (listThenCloses 1000) (start 2 deafSink ⟨0, false⟩)).1 := by
    unfold NoCloseFails
    decide +kernel
  have again := close_of_isClosed
    (w := (performAll (listThenCloses 1000) (start 2 deafSink ⟨0, false⟩)).2) (by decide +kernel)
  have safe := (secured_of_closes (atomic_recorder deafSink) rfl ⟨0, false⟩ 2
    (listThenCloses 1000)).1 succeed _ again
  exact ⟨by decide +kernel, by decide +kernel, safe.1, safe.2.1⟩

/-- The delivery that a close makes fails, and so does the close. The next one succeeds, although
the sink holds nothing of what was written and was never sealed. -/
theorem loss_behind_failed_close :
    let (results, w) := performAll (listThenCloses 1) (start 65536 deafSink ⟨0, false⟩)
    results = [.ok (some ⟨0, 0⟩), .error (.io "writing bit stream" .deviceLost), .ok none] ∧
      w.bits.written = [false, true, false, true, false, false, false, false] ∧
      content w.bits.sink = [] ∧ w.bits.sink.seals = 0 := by
  decide +kernel

end PostingWriter

end IndexMerge
