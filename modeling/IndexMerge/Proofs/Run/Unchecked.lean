import IndexMerge.Proofs.InvertedFile.Guarded
import IndexMerge.Proofs.Posting.Sequence
import IndexMerge.Proofs.Run.Untrusted

/-!
# Cursors that do not look at documents

A cursor over any bytes refuses a posting because of its document only where a cursor that does not
look at documents goes on (`next_unchecked`): what it reports then is that the document is outside
the range of the header or not behind the one before it (`RunHeader.Reports`). Of the postings that
are stored it reports the first one with such a document (`reports_of_stored`).
-/

namespace IndexMerge

open Attempt PostingSource

/-- What the cursor over a run with this header reports of documents. -/
inductive RunHeader.Reports (h : RunHeader) : Error → Prop
  | range {doc : UInt32} (outside : doc < h.firstDoc ∨ h.lastDoc < doc) :
    h.Reports (.violation (.outsideRange doc h.firstDoc h.lastDoc h.runIndex))
  | order {doc last : UInt32} (le : doc ≤ last) :
    h.Reports (.violation (.runOrder doc last h.runIndex))

/-- A document is outside the range of the header, or not behind the one before it. -/
def RunHeader.Refuses (h : RunHeader) (before : Option UInt32) (doc : UInt32) : Prop :=
  doc < h.firstDoc ∨ h.lastDoc < doc ∨ ∃ last, before = some last ∧ doc ≤ last

/-- The order of what is written is not the cursor's to report. -/
theorem RunHeader.Reports.ne_writtenOrder {h : RunHeader} {e : Error} (reports : h.Reports e)
    (doc last : UInt32) : e ≠ .violation (.writtenOrder doc last) := by
  cases reports <;> nofun

/-- Naming the source of a failure makes no violation of it. -/
theorem Error.eq_violation_of_within {name : String} {e : Error} {v : Violation}
    (h : e.within name = .violation v) : e = .violation v := by
  unfold within at h
  split at h
  · split at h <;> cases h
  · exact h

theorem Posting.quiet_decode (layout : Layout) : Quiet (decode layout) := by
  unfold decode decodeSized
  refine .map _ (.bind Decode.quiet_u32 fun _ => .bind Decode.quiet_u32 fun _ =>
    .bind (.times Decode.quiet_u32 _) fun _ => ?_)
  dsimp only
  split
  · exact .bind Decode.quiet_u32 fun _ => .bind (.times Decode.quiet_u32 _) fun _ => .ofPure _
  · exact .ofPure _

theorem EntryHead.quiet_decode (layout : Layout) : Quiet (decode layout) := by
  unfold decode
  exact .bind Decode.quiet_u16 fun _ => .bind (Decode.quiet_bytes _) fun _ =>
    .bind Decode.quiet_u32 fun _ => .bind Decode.quiet_u64 fun _ =>
    .bind (.times Decode.quiet_u64 _) fun _ => .bind (Decode.quiet_word 8) fun _ =>
    .bind (Decode.quiet_require _ _) fun _ => .ofPure _

namespace StoredCursor

variable {c c' : StoredCursor} {p : Posting} {doc : UInt32} {e : Error}

theorem reports_of_checkDoc (refused : c.checkDoc doc = .error e) : c.header.Reports e := by
  unfold checkDoc at refused
  split at refused
  · rename_i outside
    cases refused
    exact .range (by simpa using outside)
  · split at refused
    · rename_i last behind
      cases refused
      rw [Option.filter_eq_some_iff] at behind
      exact .order (by simpa using behind.2)
    · cases refused

/-- The next posting of the entry as it is stored, whatever its document. -/
def decodeNext : Attempt Error StoredCursor (Option Posting) := fun c =>
  match c.source, c.pendingPostings with
  | some source, pending + 1 =>
    match Posting.decode c.header.layout source with
    | (.error e, source) => (.error e, { c with source := some source })
    | (.ok p, source) =>
      let size := p.storedSize c.header.layout
      let c := { c with source := some source }
      if c.pendingBytes < size then
        (.error (.format (.postingsOverrun c.header.runIndex)), c)
      else
        (.ok (some p), { c with
          pendingPostings := pending
          pendingBytes := c.pendingBytes - size
          lastDoc := some p.docId })
  | _, _ => (.ok none, c)

/-- A cursor gives what is stored if it accepts the document. -/
theorem nextPosting_eq (c : StoredCursor) : nextPosting c = match decodeNext c with
    | (.ok (some p), c') =>
      match c.checkDoc p.docId with
      | .error e => (.error e, { c' with lastDoc := c.lastDoc })
      | .ok () => (.ok (some p), c')
    | (result, c') => (result, c') := by
  rw [nextPosting_decode]
  unfold decodeNext
  cases c.source with
  | none => rfl
  | some source =>
    cases c.pendingPostings with
    | zero => rfl
    | succ pending =>
      dsimp only
      rcases Posting.decode c.header.layout source with ⟨e | p, rest⟩
      · rfl
      · dsimp only
        by_cases overrun : c.pendingBytes < p.storedSize c.header.layout
        · rw [if_pos overrun, if_pos overrun]
        · rw [if_neg overrun, if_neg overrun]
          rfl

theorem quiet_decodeNext : Quiet decodeNext := by
  intro c v
  unfold decodeNext
  split
  · rename_i source pending _ _
    have quiet := Posting.quiet_decode c.header.layout source v
    split <;> rename_i read
    · rw [read] at quiet
      exact fun failed => quiet (congrArg Except.error (Except.error.inj failed))
    · dsimp only
      split <;> simp
  · simp

theorem quiet_skipPostings (term : Term) (pending : Nat) : Quiet (skipPostings term pending) := by
  unfold skipPostings
  refine .bind (.rename _ _) fun skipped => ?_
  split
  · exact .ofThrow nofun
  · exact .ofPure ()

theorem quiet_decodeHead (layout : Layout) (last : Option Term) :
    Quiet (decodeHead layout last) := by
  unfold decodeHead
  refine .bind (EntryHead.quiet_decode layout) fun head => ?_
  split
  · exact .ofThrow nofun
  · exact .ofPure head

theorem quiet_advance : Quiet advance := by
  intro c v
  unfold advance
  split
  · simp
  · rename_i source _
    split
    · simp
    · dsimp only
      have quiet := Quiet.bind (quiet_skipPostings c.term c.pendingBytes)
        (fun _ => quiet_decodeHead c.header.layout (if c.isPositioned then some c.term else none))
        source v
      split <;> rename_i read
      · rw [read] at quiet
        exact fun failed => quiet (congrArg Except.error
          (Error.eq_violation_of_within (Except.error.inj failed)))
      · simp

theorem lastDoc_of_decodeNext (given : decodeNext c = (.ok (some p), c')) :
    c'.header = c.header ∧ c'.lastDoc = some p.docId := by
  unfold decodeNext at given
  split at given
  · split at given
    · cases given
    · dsimp only at given
      split at given
      · cases given
      · cases given
        exact ⟨rfl, rfl⟩
  · cases given

/-- A posting that is given lies in the range of the header and behind the one before it. -/
theorem order_of_nextPosting (given : nextPosting c = (.ok (some p), c')) :
    c.header.firstDoc ≤ p.docId ∧ p.docId ≤ c.header.lastDoc ∧
      c.lastDoc.filter (p.docId ≤ ·) = none ∧ c'.header = c.header ∧
      c'.lastDoc = some p.docId := by
  rw [nextPosting_eq] at given
  split at given
  · rename_i read
    split at given
    · cases given
    · rename_i checked
      cases given
      obtain ⟨low, high⟩ := range_of_checkDoc checked
      exact ⟨low, high, follows_of_checkDoc checked, lastDoc_of_decodeNext read⟩
  · rename_i other _
    cases given
    exact (other p rfl).elim

end StoredCursor

/-- A cursor over the bytes of a run that gives what is stored, whatever the documents. -/
structure UncheckedCursor where
  cursor : StoredCursor

namespace UncheckedCursor

instance : RunCursor UncheckedCursor where
  runIndex c := c.cursor.runIndex
  term c := c.cursor.term
  statistics c := c.cursor.statistics
  hasNext c := c.cursor.hasNext
  advance := StoredCursor.advance.onPart cursor fun c _ => ⟨c⟩
  close := StoredCursor.close.onPart cursor fun c _ => ⟨c⟩
  openPostings c := ⟨c.cursor.openPostings⟩
  nextPosting := StoredCursor.decodeNext.onPart cursor fun c _ => ⟨c⟩
  entriesLeft c := c.cursor.remainingTerms
  postingsLeft c := c.cursor.pendingPostings
  entriesLeft_advance := by
    intro c c' h
    obtain ⟨advanced, rfl⟩ := Prod.mk.inj h
    exact RunCursor.entriesLeft_advance (C := StoredCursor) (Prod.ext advanced rfl)
  entriesLeft_openPostings _ := rfl
  entriesLeft_nextPosting := by
    intro c
    show (StoredCursor.decodeNext c.cursor).2.remainingTerms = c.cursor.remainingTerms
    unfold StoredCursor.decodeNext
    split
    · split
      · rfl
      · dsimp only
        split <;> rfl
    · rfl
  postingsLeft_nextPosting := by
    intro c c' p h
    obtain ⟨given, rfl⟩ := Prod.mk.inj h
    have read : StoredCursor.decodeNext c.cursor =
        (.ok (some p), (StoredCursor.decodeNext c.cursor).2) := Prod.ext given rfl
    show (StoredCursor.decodeNext c.cursor).2.pendingPostings < c.cursor.pendingPostings
    generalize (StoredCursor.decodeNext c.cursor).2 = after at read
    unfold StoredCursor.decodeNext at read
    split at read
    · rename_i pending
      split at read
      · cases read
      · dsimp only at read
        split at read
        · cases read
        · cases read
          rw [pending]
          exact Nat.lt_succ_self _
    · cases read

end UncheckedCursor

namespace Lease

/-- The lease of a cursor that does not look at documents. -/
def unchecked (lease : Lease StoredCursor) : Lease UncheckedCursor :=
  ⟨lease.position, ⟨lease.cursor⟩⟩

/-- A cursor either reports a document, or it gives what is stored. What it reports then is no
violation. -/
theorem next_unchecked (lease : Lease StoredCursor) :
    (∃ e, (next lease).1 = .error e ∧ lease.cursor.header.Reports e) ∨
      next lease.unchecked = ((next lease).1, (next lease).2.unchecked) ∧
        ∀ v, (next lease).1 ≠ .error (.violation v) := by
  have asked : next lease = ((StoredCursor.nextPosting lease.cursor).1,
      { lease with cursor := (StoredCursor.nextPosting lease.cursor).2 }) := rfl
  have stored : next lease.unchecked = ((StoredCursor.decodeNext lease.cursor).1,
      ⟨lease.position, ⟨(StoredCursor.decodeNext lease.cursor).2⟩⟩) := rfl
  have quiet := StoredCursor.quiet_decodeNext lease.cursor
  rw [asked, stored, StoredCursor.nextPosting_eq]
  generalize StoredCursor.decodeNext lease.cursor = outcome at quiet ⊢
  obtain ⟨e | _ | p, c⟩ := outcome
  · exact .inr ⟨rfl, quiet⟩
  · exact .inr ⟨rfl, quiet⟩
  · cases checked : lease.cursor.checkDoc p.docId with
    | error e =>
      refine .inl ⟨e, ?_, StoredCursor.reports_of_checkDoc checked⟩
      dsimp only
      rw [checked]
    | ok done =>
      refine .inr ⟨?_, ?_⟩
      · dsimp only
        rw [checked]
        rfl
      · dsimp only
        rw [checked]
        nofun

/-- The document of a posting that is given is not refused. -/
theorem not_refuses_of_next {lease : Lease StoredCursor} {p : Posting}
    (given : (next lease).1 = .ok (some p)) :
    ¬lease.cursor.header.Refuses lease.cursor.lastDoc p.docId := by
  have given : StoredCursor.nextPosting lease.cursor = (.ok (some p), (next lease).2.cursor) :=
    Prod.ext given rfl
  obtain ⟨low, high, follows, -⟩ := StoredCursor.order_of_nextPosting given
  rintro (less | greater | ⟨last, same, le⟩)
  · exact UInt32.not_le.mpr less low
  · exact UInt32.not_le.mpr greater high
  · rw [same, Option.filter_some, if_pos (decide_eq_true le)] at follows
    cases follows

/-- Behind postings that are stored there is one whose document is refused. Then a cursor gives some
of these postings and reports the document of the next one. -/
theorem reports_of_replies {lease : Lease StoredCursor} {front : List Posting} {p : Posting}
    (stored : replies (front.length + 1) lease.unchecked =
      (front ++ [p]).map fun p => .ok (some p))
    (refused : lease.cursor.header.Refuses
      ((front.map Posting.docId).getLast?.or lease.cursor.lastDoc) p.docId) :
    ∃ given, given <+: front ∧ ∃ e, replies (given.length + 1) lease =
      (given.map fun p => .ok (some p)) ++ [.error e] ∧ lease.cursor.header.Reports e := by
  induction front generalizing lease with
  | nil =>
    have stored : (next lease.unchecked).1 = .ok (some p) := (List.cons.inj stored).1
    rcases lease.next_unchecked with ⟨e, failed, reports⟩ | ⟨same, -⟩
    · exact ⟨[], List.nil_prefix, e, congrArg (List.cons · []) failed, reports⟩
    · rw [same] at stored
      exact (not_refuses_of_next stored refused).elim
  | cons q front ih =>
    rw [List.length_cons, replies_cons] at stored
    obtain ⟨first, stored⟩ := List.cons.inj stored
    rcases lease.next_unchecked with ⟨e, failed, reports⟩ | ⟨same, -⟩
    · exact ⟨[], List.nil_prefix, e, congrArg (List.cons · []) failed, reports⟩
    · rw [same] at first stored
      have moved : StoredCursor.nextPosting lease.cursor =
          (.ok (some q), (next lease).2.cursor) := Prod.ext first rfl
      obtain ⟨-, -, -, header, noted⟩ := StoredCursor.order_of_nextPosting moved
      rw [List.map_cons, getLast?_cons_or, ← header, ← noted] at refused
      obtain ⟨given, part, e, replied, reports⟩ := ih stored refused
      refine ⟨q :: given, List.cons_prefix_cons.mpr ⟨rfl, part⟩, e, ?_, header ▸ reports⟩
      rw [List.length_cons, replies_cons, first, replied]
      rfl

/-- Of the postings that are stored for its entry a cursor gives those before the first one whose
document is refused, and reports this. -/
theorem reports_of_stored {lease : Lease StoredCursor} {front : List Posting} {p : Posting}
    (stored : replies (front.length + 1) lease.openPostings.unchecked =
      (front ++ [p]).map fun p => .ok (some p))
    (refused : lease.cursor.header.Refuses (front.map Posting.docId).getLast? p.docId) :
    ∃ given, given <+: front ∧ ∃ e, replies (given.length + 1) lease.openPostings =
      (given.map fun p => .ok (some p)) ++ [.error e] ∧ lease.cursor.header.Reports e := by
  have begun : lease.openPostings.cursor.lastDoc = none := rfl
  refine reports_of_replies stored ?_
  rwa [begun, Option.or_none]

/-- Cursors over runs with these headers lie one before another and behind a document, which is the
last one that a cursor gave or lies before its range. -/
structure InOrder (headers : List RunHeader) (last : Option UInt32)
    (leases : List (Lease StoredCursor)) : Prop where
  listed : ∀ lease ∈ leases, lease.cursor.header ∈ headers
  apart : leases.Pairwise fun a b => a.cursor.header.lastDoc < b.cursor.header.firstDoc
  behind : ∀ lease ∈ leases, ∀ doc, last = some doc →
    doc < lease.cursor.header.firstDoc ∨ lease.cursor.lastDoc = some doc

variable {headers : List RunHeader} {last : Option UInt32} {lease lease' : Lease StoredCursor}
  {rest : List (Lease StoredCursor)} {p : Posting}

theorem InOrder.tail (h : InOrder headers last (lease :: rest)) : InOrder headers last rest :=
  ⟨fun other member => h.listed other (List.mem_cons_of_mem _ member), h.apart.tail,
    fun other member => h.behind other (List.mem_cons_of_mem _ member)⟩

/-- A posting of the first cursor lies behind the document, and the cursors lie behind the
posting. -/
theorem InOrder.given (h : InOrder headers last (lease :: rest))
    (given : next lease = (.ok (some p), lease')) :
    last.filter (p.docId ≤ ·) = none ∧ InOrder headers (some p.docId) (lease' :: rest) := by
  have result : (next lease).1 = .ok (some p) := congrArg Prod.fst given
  have after : (next lease).2.cursor = lease'.cursor :=
    congrArg (fun answer : _ × Lease StoredCursor => answer.2.cursor) given
  have asked : StoredCursor.nextPosting lease.cursor = (.ok (some p), lease'.cursor) :=
    Prod.ext result after
  have ⟨low, high, follows, header, noted⟩ := StoredCursor.order_of_nextPosting asked
  have ⟨before, apart⟩ := List.pairwise_cons.mp h.apart
  refine ⟨?_, fun other member => ?_, List.pairwise_cons.mpr ⟨fun other member => ?_, apart⟩, ?_⟩
  · cases last with
    | none => rfl
    | some doc =>
      rcases h.behind lease (List.mem_cons_self ..) doc rfl with less | same
      · have behind : ¬p.docId ≤ doc := by
          rw [UInt32.le_iff_toNat_le] at low ⊢
          rw [UInt32.lt_iff_toNat_lt] at less
          omega
        simp [Option.filter_some, behind]
      · rwa [same] at follows
  · rcases List.mem_cons.mp member with rfl | member
    · exact header ▸ h.listed lease (List.mem_cons_self ..)
    · exact h.listed other (List.mem_cons_of_mem _ member)
  · have apart := before other member
    rwa [← header] at apart
  · rintro other member doc same
    obtain rfl := Option.some.inj same
    rcases List.mem_cons.mp member with rfl | member
    · exact .inr noted
    · exact .inl (UInt32.lt_of_le_of_lt high (before other member))

end Lease

namespace PostingSequence

variable {headers : List RunHeader} {last : Option UInt32}

theorem nextOf_unchecked {rest : List (Lease StoredCursor)}
    (ordered : Lease.InOrder headers last rest) (ended : List (Lease StoredCursor)) :
    (∃ e, (nextOf ended rest).1 = .error e ∧ ∃ h ∈ headers, h.Reports e) ∨
      nextOf (ended.map Lease.unchecked) (rest.map Lease.unchecked) =
          ((nextOf ended rest).1, (nextOf ended rest).2.map Lease.unchecked) ∧
        (∀ v, (nextOf ended rest).1 ≠ .error (.violation v)) ∧
        ∀ p, (nextOf ended rest).1 = .ok (some p) → last.filter (p.docId ≤ ·) = none ∧
          Lease.InOrder headers (some p.docId) (nextOf ended rest).2.waiting := by
  induction rest generalizing ended with
  | nil => exact .inr ⟨rfl, by simp [nextOf], by simp [nextOf]⟩
  | cons lease rest ih =>
    have answer := lease.next_unchecked
    rw [List.map_cons, nextOf, nextOf]
    rcases asked : PostingSource.next lease with ⟨e | _ | p, lease'⟩
    all_goals
      rw [asked] at answer
      rcases answer with ⟨e, failed, reports⟩ | ⟨stored, other⟩
    · cases failed
      exact .inl ⟨e, rfl, _, ordered.listed lease (List.mem_cons_self ..), reports⟩
    · rw [stored]
      exact .inr ⟨rfl, other, by simp⟩
    · cases failed
    · rw [stored]
      exact ih ordered.tail (lease' :: ended)
    · cases failed
    · rw [stored]
      refine .inr ⟨rfl, by simp, fun q same => ?_⟩
      cases same
      exact ordered.given asked

/-- Cursors that are read as one guard the same cursors without their checks. -/
theorem guards_unchecked (headers : List RunHeader) :
    Guards (fun e => ∃ h ∈ headers, h.Reports e)
      fun last (s : PostingSequence (Lease StoredCursor)) t =>
        Lease.InOrder headers last s.waiting ∧ t = s.map Lease.unchecked := by
  rintro last s _ ⟨ordered, rfl⟩
  cases s with
  | direct lease =>
    rcases lease.next_unchecked with ⟨e, failed, reports⟩ | ⟨stored, other⟩
    · exact .inl ⟨e, failed, _, ordered.listed lease (List.mem_cons_self ..), reports⟩
    · refine .inr ⟨congrArg Prod.fst stored, other, fun p asked => ?_⟩
      have ⟨follows, ordered⟩ := Lease.InOrder.given ordered (Prod.ext asked rfl)
      have after : (PostingSource.next lease.unchecked).2 =
          (PostingSource.next lease).2.unchecked := congrArg Prod.snd stored
      exact ⟨follows, ordered, congrArg direct after⟩
  | concatenated ended rest =>
    rcases nextOf_unchecked ordered ended with failed | ⟨same, other, given⟩
    · exact .inl failed
    · refine .inr ⟨congrArg Prod.fst same, other, fun p asked => ⟨(given p asked).1,
        (given p asked).2, congrArg Prod.snd same⟩⟩

end PostingSequence

end IndexMerge
