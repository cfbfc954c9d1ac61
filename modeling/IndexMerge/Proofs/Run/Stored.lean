import IndexMerge.Proofs.Posting.Ascending
import IndexMerge.Proofs.Run.Record
import IndexMerge.Proofs.Run.Statistics
import IndexMerge.Proofs.Run.Walk

/-!
# Walks over a stored run

A cursor over the bytes of a run goes over the entries that were stored (`walks_stored`), if the
entries keep the rules of a run and lie in the document range of its header.
-/

namespace IndexMerge

open Attempt PostingSource

variable {header : RunHeader}

/-- What a posting has to be like to be stored behind a header. -/
structure Posting.Storable (header : RunHeader) (p : Posting) : Prop where
  fits : p.Fits header.layout
  blocks : p.blocks.length < UInt32.size
  range : header.firstDoc ≤ p.docId ∧ p.docId ≤ header.lastDoc

/-- What an entry has to be like to be stored behind a header. -/
structure RunEntry.Storable (header : RunHeader) (e : RunEntry) : Prop where
  sound : e.Sound header.layout
  count : e.postings.length < UInt32.size
  blocks : ∀ p ∈ e.postings, p.blocks.length < UInt32.size
  range : ∀ p ∈ e.postings, header.firstDoc ≤ p.docId ∧ p.docId ≤ header.lastDoc
  size : (e.postings.flatMap (Posting.encode header.layout)).length < UInt64.size

namespace RunEntry.Storable

variable {e : RunEntry}

/-- The head of an entry that can be stored can be stored. -/
theorem head (h : e.Storable header) : EntryHead.Storable header.layout
    ⟨e.term, e.statistics, (e.postings.flatMap (Posting.encode header.layout)).length⟩ := by
  have documents := @TermStatistics.documentFrequency_ofPostings header.layout _ h.count
  refine ⟨h.sound.length_le, ?_, ?_, ?_, ?_, h.size⟩
  · rw [h.sound.statistics_eq, TermStatistics.length_fieldFrequencies_ofPostings]
  · intro zero
    rw [h.sound.statistics_eq] at zero
    rw [zero] at documents
    exact h.sound.nonempty (List.length_eq_zero_iff.mp documents.symm)
  · rw [h.sound.statistics_eq]
    rfl
  · rw [h.sound.statistics_eq]
    rfl

/-- The postings of an entry that can be stored can be stored. -/
theorem postings (h : e.Storable header) : ∀ p ∈ e.postings, p.Storable header :=
  fun p member => ⟨Layout.check_eq_ok_iff.mp (h.sound.fits p member), h.blocks p member,
    h.range p member⟩

/-- The document frequency of an entry counts its postings. -/
theorem count_eq (h : e.Storable header) :
    e.statistics.documentFrequency.toNat = e.postings.length := by
  rw [h.sound.statistics_eq]
  exact TermStatistics.documentFrequency_ofPostings h.count

end RunEntry.Storable

namespace StoredCursor

/-- The cursor stands before the bytes of these postings of its entry, and behind them are the bytes
of these entries. -/
structure Before (c : StoredCursor) (postings : List Posting) (entries : List RunEntry)
    (fault : Option IoFault) : Prop where
  source_eq : c.source = some ⟨postings.flatMap (Posting.encode c.header.layout) ++
    entries.flatMap (RunEntry.encode c.header.layout), fault⟩
  remaining_eq : c.remainingTerms = entries.length
  count_eq : c.pendingPostings = postings.length
  bytes_eq : c.pendingBytes = (postings.flatMap (Posting.encode c.header.layout)).length
  ascending : Term.Ascending
    ((if c.isPositioned then [c.term] else []) ++ entries.map RunEntry.term)

/-- The cursor when just these postings of its entry are ahead. -/
def beforePostings (c : StoredCursor) (postings : List Posting) (entries : List RunEntry)
    (fault : Option IoFault) (last : Option UInt32) : StoredCursor :=
  { c with
    source := some ⟨postings.flatMap (Posting.encode c.header.layout) ++
      entries.flatMap (RunEntry.encode c.header.layout), fault⟩
    pendingPostings := postings.length
    pendingBytes := (postings.flatMap (Posting.encode c.header.layout)).length
    lastDoc := last }

/-- The cursor on an entry that is followed by others, before the bytes of its postings. -/
def onEntry (c : StoredCursor) (e : RunEntry) (entries : List RunEntry) (fault : Option IoFault) :
    StoredCursor :=
  { c with
    term := e.term
    statistics := e.statistics
    isPositioned := true
    remainingTerms := entries.length }.beforePostings e.postings entries fault none

section Postings

variable {c : StoredCursor} {p : Posting} {postings : List Posting} {entries : List RunEntry}
  {fault : Option IoFault}

theorem Before.beforePostings (before : c.Before postings entries fault) (others : List Posting)
    (last : Option UInt32) : (c.beforePostings others entries fault last).Before others entries
      fault :=
  ⟨rfl, before.remaining_eq, rfl, rfl, before.ascending⟩

theorem Before.openPostings (before : c.Before postings entries fault) :
    c.openPostings.Before postings entries fault :=
  ⟨before.source_eq, before.remaining_eq, before.count_eq, before.bytes_eq, before.ascending⟩

/-- A cursor is already where its postings are ahead. -/
theorem Before.beforePostings_eq (before : c.Before postings entries fault) :
    c.beforePostings postings entries fault c.lastDoc = c := by
  rw [StoredCursor.beforePostings, ← before.source_eq, ← before.count_eq, ← before.bytes_eq]

theorem checkDoc_eq_ok {doc : UInt32} (low : c.header.firstDoc ≤ doc)
    (high : doc ≤ c.header.lastDoc) (follows : c.lastDoc.filter (doc ≤ ·) = none) :
    c.checkDoc doc = .ok () := by
  have inside : (decide (doc < c.header.firstDoc) || decide (c.header.lastDoc < doc)) = false := by
    simp [UInt32.not_lt, low, high]
  unfold checkDoc
  rw [if_neg (by rw [inside]; exact Bool.false_ne_true), follows]

/-- A posting whose bytes are ahead is given. -/
theorem nextPosting_of_before (before : c.Before (p :: postings) entries fault)
    (storable : p.Storable c.header) (follows : c.lastDoc.filter (p.docId ≤ ·) = none) :
    nextPosting c =
      (.ok (some p), c.beforePostings postings entries fault (some p.docId)) := by
  have source := before.source_eq
  have bytes := before.bytes_eq
  rw [List.flatMap_cons, List.append_assoc] at source
  rw [List.flatMap_cons, List.length_append, Posting.length_encode] at bytes
  have fits : ¬c.pendingBytes < p.storedSize c.header.layout := by omega
  have rest : c.pendingBytes - p.storedSize c.header.layout =
      (postings.flatMap (Posting.encode c.header.layout)).length := by omega
  unfold nextPosting
  rw [source, before.count_eq, List.length_cons]
  dsimp only
  rw [(Posting.reads_decodeSized (storable.fits.shaped storable.blocks)).source _ fault]
  dsimp only
  rw [if_neg fits, rest, checkDoc_eq_ok]
  · rfl
  · exact storable.range.1
  · exact storable.range.2
  · exact follows

/-- Behind the postings of the entry none is given. -/
theorem nextPosting_of_ended (before : c.Before [] entries fault) :
    nextPosting c = (.ok none, c) := by
  unfold nextPosting
  rw [before.source_eq, before.count_eq]
  rfl

/-- The cursor gives the postings whose bytes are ahead, and stands behind these bytes then. -/
theorem yields_stored (position : Nat) (before : c.Before postings entries fault)
    (storable : ∀ p ∈ postings, p.Storable c.header)
    (ascending : isAscendingAfter c.lastDoc (postings.map Posting.docId) = true) :
    ∃ last, Yields (⟨position, c⟩ : Lease StoredCursor) postings
      ⟨position, c.beforePostings [] entries fault last⟩ := by
  induction postings generalizing c with
  | nil =>
    refine ⟨c.lastDoc, ?_⟩
    rw [before.beforePostings_eq]
    show (let (result, cursor) := nextPosting c
      (result, ({ position, cursor } : Lease StoredCursor))) = _
    rw [nextPosting_of_ended before]
  | cons p postings ih =>
    have ⟨follows, ascending⟩ := isAscendingAfter_cons.mp ascending
    have given := nextPosting_of_before before (storable p (by simp)) follows
    obtain ⟨last, yields⟩ := ih (before.beforePostings postings (some p.docId))
      (fun q member => storable q (by simp [member])) ascending
    refine ⟨last, _, ?_, yields⟩
    show (let (result, cursor) := nextPosting c
      (result, ({ position, cursor } : Lease StoredCursor))) = _
    rw [given]

end Postings

section Walk

variable {c : StoredCursor} {e : RunEntry} {postings : List Posting} {entries : List RunEntry}
  {fault : Option IoFault}

/-- The term on which a cursor stands precedes that of the entry ahead. -/
theorem Before.precedes (before : c.Before postings (e :: entries) fault) {term : Term}
    (here : (if c.isPositioned then some c.term else none) = some term) :
    term.precedes e.term = true := by
  have sorted := before.ascending
  cases positioned : c.isPositioned with
  | false =>
    rw [positioned] at here
    cases here
  | true =>
    rw [positioned] at here sorted
    obtain rfl := Option.some.inj here
    exact (List.pairwise_cons.mp sorted).1 e.term (by simp)

/-- On an entry its postings are ahead. -/
theorem Before.onEntry (before : c.Before postings (e :: entries) fault) :
    (c.onEntry e entries fault).Before e.postings entries fault :=
  ⟨rfl, rfl, rfl, rfl, (List.pairwise_append.mp before.ascending).2.1⟩

/-- An advance goes to the entry whose bytes are behind the postings ahead, which are passed over.
-/
theorem advance_of_before (before : c.Before postings (e :: entries) fault)
    (storable : e.Storable c.header) : advance c = (.ok (), c.onEntry e entries fault) := by
  have source := before.source_eq
  rw [List.flatMap_cons, RunEntry.encode, List.append_assoc, ← List.append_assoc] at source
  have step := ((reads_skipPostings c.term (postings.flatMap
      (Posting.encode c.header.layout))).bind
    (f := fun _ => decodeHead c.header.layout (if c.isPositioned then some c.term else none))
    (reads_decodeHead storable.head fun _ => before.precedes)).source
  unfold advance
  rw [source, before.remaining_eq, List.length_cons, before.bytes_eq]
  dsimp only
  rw [step]
  dsimp only
  rw [storable.count_eq]
  rfl

/-- A cursor before the bytes of entries that can be stored goes over the entries. -/
theorem walks_stored (position : Nat) (before : c.Before postings entries fault)
    (storable : ∀ e ∈ entries, e.Storable c.header) :
    (⟨position, c⟩ : Lease StoredCursor).Walks c.runIndex entries := by
  induction entries generalizing c postings with
  | nil =>
    have ended := before.remaining_eq
    refine ⟨rfl, ?_, rfl⟩
    show (c.source.isSome && c.remainingTerms != 0) = false
    simp [ended]
  | cons e entries ih =>
    have first := storable e (by simp)
    have here := before.onEntry.openPostings
    obtain ⟨last, yields⟩ := yields_stored position here first.postings first.sound.ascending
    have rest := ih (here.beforePostings [] last) fun other member =>
      storable other (by simp [member])
    refine ⟨rfl, ?_, _, advance_of_before before first, rfl, rfl, rfl, _, yields, rest⟩
    show (c.source.isSome && c.remainingTerms != 0) = true
    simp [before.source_eq, before.remaining_eq]

end Walk

end StoredCursor

end IndexMerge
