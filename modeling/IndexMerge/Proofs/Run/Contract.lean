import IndexMerge.Proofs.Run.Untrusted
import IndexMerge.Proofs.Term.Order

/-!
# What can be relied on from a cursor over any bytes

A cursor over the bytes of a run may be used in any way, also after calls that failed: it is
advanced, the postings of its entry are begun again and again and asked for, and it is closed. The
entries on which it stood and the postings that it gave there are noted beside it (`Tour`). Each
use keeps these notes in order (`Tour.Keeps.after`), because the cursor checks all that is noted, so
every sequence of uses does (`contract_of_uses`).
-/

namespace IndexMerge

open Attempt

/-- An entry has at least one posting, and a total for each field. -/
theorem EntryHead.totals_of_decode {layout : Layout} {source rest : ByteSource} {head : EntryHead}
    (read : decode layout source = (.ok head, rest)) :
    1 ≤ head.statistics.documentFrequency.toNat ∧
      head.statistics.fieldFrequencies.length = layout.fieldCount.toNat := by
  obtain ⟨_, ⟨storable, -⟩, -⟩ := exact_decode layout source rest head read
  refine ⟨Nat.one_le_iff_ne_zero.mpr fun none => ?_, storable.fields⟩
  exact storable.documents (UInt32.toNat_inj.mp none)

/-- An entry on which a cursor stood, and the postings that it gave there, in one list for each time
they were begun. Of the lists, and of the postings in a list, the last one is first. -/
structure Visit where
  term : Term
  statistics : TermStatistics
  given : List (List Posting)
  deriving DecidableEq, Repr

namespace Visit

/-- The postings of the entry are begun again. -/
def begin (v : Visit) : Visit := { v with given := [] :: v.given }

/-- A posting of the entry is given. -/
def give (p : Posting) (v : Visit) : Visit := { v with given := v.given.modifyHead (p :: ·) }

/-- What is promised of an entry behind a header: it has postings and a total for each field, no
more postings were given than it has, all in the range of the header, and their documents ascend
each time that they were begun. -/
structure Sound (header : RunHeader) (v : Visit) : Prop where
  documents : 1 ≤ v.statistics.documentFrequency.toNat
  fields : v.statistics.fieldFrequencies.length = header.layout.fieldCount.toNat
  count : v.given.flatten.length ≤ v.statistics.documentFrequency.toNat
  range : ∀ postings ∈ v.given, ∀ p ∈ postings,
    header.firstDoc ≤ p.docId ∧ p.docId ≤ header.lastDoc
  ascending : ∀ postings ∈ v.given,
    postings.Pairwise fun later earlier => earlier.docId < later.docId

variable {header : RunHeader} {v : Visit} {p : Posting}

theorem Sound.begin (h : v.Sound header) : v.begin.Sound header where
  documents := h.documents
  fields := h.fields
  count := h.count
  range := List.forall_mem_cons.mpr ⟨fun _ none => (List.not_mem_nil none).elim, h.range⟩
  ascending := List.forall_mem_cons.mpr ⟨.nil, h.ascending⟩

/-- A posting may be given that is behind the last one of its list, if one is left. -/
theorem Sound.give (h : v.Sound header)
    (left : v.given.flatten.length < v.statistics.documentFrequency.toNat)
    (inside : header.firstDoc ≤ p.docId ∧ p.docId ≤ header.lastDoc)
    (behind : ∀ last ∈ v.given.head?.bind List.head?, last.docId < p.docId) :
    (v.give p).Sound header := by
  obtain ⟨term, statistics, _ | ⟨postings, others⟩⟩ := v
  · exact ⟨h.documents, h.fields, h.count, h.range, h.ascending⟩
  have ⟨range, ranges⟩ := List.forall_mem_cons.mp h.range
  have ⟨ascending, ascendings⟩ := List.forall_mem_cons.mp h.ascending
  refine ⟨h.documents, h.fields, ?_, ?_, ?_⟩
  · simpa [Visit.give, Nat.succ_le_iff] using left
  · exact List.forall_mem_cons.mpr ⟨List.forall_mem_cons.mpr ⟨inside, range⟩, ranges⟩
  · refine List.forall_mem_cons.mpr ⟨?_, ascendings⟩
    cases postings with
    | nil => exact List.pairwise_singleton _ _
    | cons last postings =>
      have less : last.docId < p.docId := behind last rfl
      refine .cons (List.forall_mem_cons.mpr ⟨less, fun earlier member => ?_⟩) ascending
      exact UInt32.lt_trans ((List.pairwise_cons.mp ascending).1 earlier member) less

end Visit

namespace StoredCursor

variable {c c' : StoredCursor} {e : Error}

/-- An advance that fails may have moved on in the bytes ahead, and changes nothing else. -/
theorem advance_eq_error (failed : advance c = (.error e, c')) :
    ∃ source, source.isSome = c.source.isSome ∧ c' = { c with source } := by
  unfold advance at failed
  split at failed
  · cases failed
    exact ⟨c.source, rfl, rfl⟩
  · rename_i isOpen
    split at failed
    · cases failed
      exact ⟨c.source, rfl, rfl⟩
    · dsimp only at failed
      split at failed <;> cases failed
      exact ⟨_, by rw [isOpen]; rfl, rfl⟩

/-- If no posting is given, there may be less left of the postings. -/
theorem nextPosting_of_not_given (none : ∀ p, (nextPosting c).1 ≠ .ok (some p)) :
    ∃ source pending bytes, pending ≤ c.pendingPostings ∧ (nextPosting c).2 =
      { c with source, pendingPostings := pending, pendingBytes := bytes } := by
  unfold nextPosting at none ⊢
  split
  · rename_i source pending isOpen count
    rw [isOpen, count] at none
    dsimp only at none
    split
    · exact ⟨_, c.pendingPostings, c.pendingBytes, Nat.le_refl _, rfl⟩
    · rename_i p size rest read
      rw [read] at none
      dsimp only at none ⊢
      split
      · exact ⟨_, c.pendingPostings, c.pendingBytes, Nat.le_refl _, rfl⟩
      · rename_i within
        rw [if_neg within] at none
        split
        · exact ⟨_, pending, _, count ▸ Nat.le_succ pending, rfl⟩
        · rename_i checked
          rw [checked] at none
          exact absurd rfl (none p)
  · exact ⟨c.source, c.pendingPostings, c.pendingBytes, Nat.le_refl _, rfl⟩

/-- Asking for postings closes nothing. -/
theorem isSome_source_nextPosting (c : StoredCursor) :
    (nextPosting c).2.source.isSome = c.source.isSome := by
  unfold nextPosting
  split
  · rename_i isOpen _
    rw [isOpen]
    split
    · rfl
    · dsimp only
      split
      · rfl
      · split <;> rfl
  · rfl

/-- An advance closes nothing. -/
theorem isSome_source_advance (c : StoredCursor) :
    (advance c).2.source.isSome = c.source.isSome := by
  rcases advanced : advance c with ⟨e | _, c'⟩
  · obtain ⟨source, same, rfl⟩ := advance_eq_error advanced
    exact same
  · obtain ⟨_, _, _, _, _, isOpen, _, _, _, rfl⟩ := exists_of_advance advanced
    rw [isOpen]
    rfl

/-- A use of a cursor. -/
inductive Use where
  | advance
  | openPostings
  | nextPosting
  | close
  deriving DecidableEq, Repr

/-- A cursor and the entries on which it stood, the last one first. -/
structure Tour where
  cursor : StoredCursor
  visits : List Visit

namespace Tour

/-- The cursor after a use, and what is noted then. -/
def after (t : Tour) : Use → Tour
  | .advance =>
    match StoredCursor.advance t.cursor with
    | (.ok (), cursor) => ⟨cursor, ⟨cursor.term, cursor.statistics, [[]]⟩ :: t.visits⟩
    | (.error _, cursor) => { t with cursor }
  | .openPostings => ⟨t.cursor.openPostings, t.visits.modifyHead Visit.begin⟩
  | .nextPosting =>
    match StoredCursor.nextPosting t.cursor with
    | (.ok (some p), cursor) => ⟨cursor, t.visits.modifyHead (Visit.give p)⟩
    | (_, cursor) => { t with cursor }
  | .close => { t with cursor := (StoredCursor.close t.cursor).2 }

/-- The cursor after a sequence of uses, whether or not they succeed. -/
def perform (uses : List Use) (t : Tour) : Tour := uses.foldl after t

/-- The cursor stands on the entry that was noted last. -/
structure StandsOn (c : StoredCursor) (v : Visit) : Prop where
  isPositioned : c.isPositioned = true
  term_eq : c.term = v.term
  statistics_eq : c.statistics = v.statistics
  count : v.given.flatten.length + c.pendingPostings ≤ v.statistics.documentFrequency.toNat
  last : c.lastDoc = (v.given.head?.bind List.head?).map Posting.docId
  begun : v.given ≠ []

/-- What is noted is in order, and the cursor is where the notes say. -/
structure Keeps (header : RunHeader) (t : Tour) : Prop where
  header_eq : t.cursor.header = header
  count : t.visits.length + t.cursor.remainingTerms = header.termCount.toNat
  terms : t.visits.Pairwise fun later earlier => earlier.term.precedes later.term = true
  each : ∀ v ∈ t.visits, v.Sound header
  before : t.visits = [] → t.cursor.isPositioned = false ∧ t.cursor.pendingPostings = 0
  current : ∀ v ∈ t.visits.head?, StandsOn t.cursor v

namespace StandsOn

variable {v : Visit}

/-- The entry stays the same when bytes and postings are used up. -/
theorem of_pending (h : StandsOn c v) (source : Option ByteSource) {pending : Nat} (bytes : Nat)
    (le : pending ≤ c.pendingPostings) :
    StandsOn { c with source, pendingPostings := pending, pendingBytes := bytes } v where
  isPositioned := h.isPositioned
  term_eq := h.term_eq
  statistics_eq := h.statistics_eq
  count := Nat.le_trans (Nat.add_le_add_left le _) h.count
  last := h.last
  begun := h.begun

theorem openPostings (h : StandsOn c v) : StandsOn c.openPostings v.begin where
  isPositioned := h.isPositioned
  term_eq := h.term_eq
  statistics_eq := h.statistics_eq
  count := h.count
  last := rfl
  begun := List.cons_ne_nil _ _

/-- A posting that is given is one of those that are left, and comes behind the last one. -/
theorem nextPosting {p : Posting} (h : StandsOn c v)
    (given : StoredCursor.nextPosting c = (.ok (some p), c')) :
    StandsOn c' (v.give p) ∧ (v.Sound c.header → (v.give p).Sound c.header) := by
  obtain ⟨_, _, pending, -, left, -, -, checked, rfl⟩ := nextPosting_eq_some given
  obtain ⟨positioned, term, statistics, count, last, begun⟩ := h
  constructor
  · refine ⟨positioned, term, statistics, ?_, ?_, ?_⟩
    all_goals obtain ⟨_, _, _ | ⟨postings, others⟩⟩ := v
    any_goals exact absurd rfl begun
    · simp only [List.flatten_cons, List.length_append, Visit.give, List.modifyHead_cons,
        List.length_cons] at count ⊢
      omega
    · rfl
    · exact List.cons_ne_nil _ _
  · intro sound
    refine sound.give (by omega) (range_of_checkDoc checked) fun other here => ?_
    have follows := Option.filter_eq_none_iff.mp (follows_of_checkDoc checked) other.docId
      (by rw [last, here]; rfl)
    simpa using follows

end StandsOn

namespace Keeps

variable {header : RunHeader} {t : Tour}

/-- Before the first advance nothing is noted. -/
theorem start (name : String) {source rest : ByteSource}
    (decodes : RunHeader.decode source = (.ok header, rest)) :
    ∃ c, StoredCursor.start name source = .ok c ∧ c.source.isSome = true ∧
      Keeps header ⟨c, []⟩ := by
  exact ⟨_, start_of_decode decodes, rfl, rfl, Nat.zero_add _, .nil, nofun, fun _ => ⟨rfl, rfl⟩,
    nofun⟩

/-- The notes stay in order when bytes and postings are used up. -/
theorem of_pending (h : t.Keeps header) (source : Option ByteSource) {pending : Nat} (bytes : Nat)
    (le : pending ≤ t.cursor.pendingPostings) : Keeps header { t with
      cursor := { t.cursor with source, pendingPostings := pending, pendingBytes := bytes } } where
  header_eq := h.header_eq
  count := h.count
  terms := h.terms
  each := h.each
  before none := ⟨(h.before none).1, Nat.le_zero.mp ((h.before none).2 ▸ le)⟩
  current v here := (h.current v here).of_pending source bytes le

/-- A term that follows the current one follows all that were noted. -/
theorem precedes (h : t.Keeps header) {term : Term}
    (follows : t.cursor.isPositioned = true → t.cursor.term.precedes term = true) :
    ∀ v ∈ t.visits, v.term.precedes term = true := by
  obtain ⟨c, _ | ⟨latest, earlier⟩⟩ := t
  · exact nofun
  have stands := h.current latest rfl
  have first : latest.term.precedes term = true := stands.term_eq ▸ follows stands.isPositioned
  refine List.forall_mem_cons.mpr ⟨first, fun v member => ?_⟩
  exact Term.precedes_trans ((List.pairwise_cons.mp h.terms).1 v member) first

theorem advance (h : t.Keeps header) : (t.after .advance).Keeps header := by
  unfold after
  dsimp only
  rcases advanced : StoredCursor.advance t.cursor with ⟨e | _, cursor⟩
  · obtain ⟨source, -, rfl⟩ := advance_eq_error advanced
    exact h.of_pending source _ (Nat.le_refl _)
  · have ⟨_, _, follows⟩ := advance_eq_ok advanced
    obtain ⟨_, _, _, remaining, head, -, left, -, read, rfl⟩ := exists_of_advance advanced
    have ⟨documents, fields⟩ := EntryHead.totals_of_decode (decodeHead_eq_ok read).1
    have count := h.count
    refine ⟨h.header_eq, ?_, .cons (h.precedes follows) h.terms, ?_, nofun, ?_⟩
    · dsimp only [List.length_cons]
      omega
    · refine List.forall_mem_cons.mpr ⟨⟨documents, ?_, Nat.zero_le _, ?_, ?_⟩, h.each⟩
      · rw [← h.header_eq]
        exact fields
      · simp
      · simp
    · rintro v ⟨⟩
      exact ⟨rfl, rfl, rfl, Nat.le_of_eq (Nat.zero_add _), rfl, List.cons_ne_nil _ _⟩

theorem openPostings (h : t.Keeps header) : (t.after .openPostings).Keeps header := by
  obtain ⟨c, _ | ⟨latest, earlier⟩⟩ := t
  · exact ⟨h.header_eq, h.count, .nil, nofun, h.before, nofun⟩
  have ⟨sound, others⟩ := List.forall_mem_cons.mp h.each
  refine ⟨h.header_eq, h.count, ?_, List.forall_mem_cons.mpr ⟨sound.begin, others⟩, nofun, ?_⟩
  · exact .cons (List.pairwise_cons.mp h.terms).1 h.terms.tail
  · rintro v ⟨⟩
    exact (h.current latest rfl).openPostings

theorem nextPosting (h : t.Keeps header) : (t.after .nextPosting).Keeps header := by
  have asked (none : ∀ p, (StoredCursor.nextPosting t.cursor).1 ≠ .ok (some p)) :
      Keeps header { t with cursor := (StoredCursor.nextPosting t.cursor).2 } := by
    obtain ⟨source, pending, bytes, le, same⟩ := nextPosting_of_not_given none
    rw [same]
    exact h.of_pending source bytes le
  unfold after
  dsimp only
  rcases answer : StoredCursor.nextPosting t.cursor with ⟨e | _ | p, cursor⟩ <;>
    rw [answer] at asked
  · exact asked nofun
  · exact asked nofun
  · obtain ⟨_, _, pending, _, left, _, _, _, same⟩ := nextPosting_eq_some answer
    obtain ⟨c, _ | ⟨latest, earlier⟩⟩ := t
    · have none := (h.before rfl).2
      rw [none] at left
      cases left
    have ⟨stands, gives⟩ := (h.current latest rfl).nextPosting answer
    have ⟨sound, others⟩ := List.forall_mem_cons.mp h.each
    have header_eq : c.header = header := h.header_eq
    rw [header_eq] at gives
    refine ⟨?_, ?_, ?_, List.forall_mem_cons.mpr ⟨gives sound, others⟩, nofun, ?_⟩
    · rw [same]
      exact h.header_eq
    · rw [same]
      exact h.count
    · exact .cons (List.pairwise_cons.mp h.terms).1 h.terms.tail
    · rintro v ⟨⟩
      exact stands

/-- Each use keeps the notes in order, whether or not it succeeds. -/
theorem after (h : t.Keeps header) (use : Use) : (t.after use).Keeps header := by
  cases use with
  | advance => exact h.advance
  | openPostings => exact h.openPostings
  | nextPosting => exact h.nextPosting
  | close => exact h.of_pending none _ (Nat.le_refl _)

theorem perform (h : t.Keeps header) (uses : List Use) : (perform uses t).Keeps header := by
  induction uses generalizing t with
  | nil => exact h
  | cons use uses ih => exact ih (h.after use)

end Keeps

/-- Only closing it closes a cursor. -/
theorem isSome_source_after {t : Tour} {use : Use} :
    (t.after use).cursor.source.isSome = true ↔
      t.cursor.source.isSome = true ∧ .close ≠ use := by
  cases use with
  | advance =>
    have kept := isSome_source_advance t.cursor
    unfold after
    dsimp only
    split <;> rename_i advanced <;> rw [advanced] at kept <;> simpa using kept
  | openPostings => simp [after, StoredCursor.openPostings]
  | nextPosting =>
    have kept := isSome_source_nextPosting t.cursor
    unfold after
    dsimp only
    split <;> rename_i asked <;> rw [asked] at kept <;> simpa using kept
  | close => simp [after, StoredCursor.close]

theorem isSome_source_perform (uses : List Use) (t : Tour) :
    (perform uses t).cursor.source.isSome = true ↔
      t.cursor.source.isSome = true ∧ .close ∉ uses := by
  induction uses generalizing t with
  | nil => simp [perform]
  | cons use uses ih =>
    refine (ih _).trans ?_
    rw [isSome_source_after, List.mem_cons, not_or, and_assoc]

end Tour

/-- Behind any bytes that begin with a header a cursor can be started and used in any way. The terms
on which it stands ascend. It can be advanced as often as there are terms in the header, and says
so until it is closed. Each entry has at least one posting and a total for each field; no more
postings are given of it than it has, however often they are begun, all of them lie in the range of
the header, and they ascend each time. The cursor shows the entry to which it was last advanced, and
before the first advance no posting is given. An advance that fails changes nothing that the cursor
shows. -/
theorem contract_of_uses {source rest : ByteSource} {header : RunHeader}
    (decodes : RunHeader.decode source = (.ok header, rest)) (name : String) (uses : List Use) :
    ∃ c, start name source = .ok c ∧
      let t := Tour.perform uses ⟨c, []⟩
      t.visits.Pairwise (fun later earlier => earlier.term.precedes later.term = true) ∧
      t.visits.length ≤ header.termCount.toNat ∧
      (t.cursor.hasNext = false ↔ .close ∈ uses ∨ t.visits.length = header.termCount.toNat) ∧
      (∀ v ∈ t.visits, v.Sound header) ∧
      (∀ v ∈ t.visits.head?, t.cursor.term = v.term ∧ t.cursor.statistics = v.statistics) ∧
      (t.visits = [] → nextPosting t.cursor = (.ok none, t.cursor)) ∧
      ∀ e c', advance t.cursor = (.error e, c') →
        c'.term = t.cursor.term ∧ c'.statistics = t.cursor.statistics ∧
          c'.hasNext = t.cursor.hasNext ∧ c'.runIndex = t.cursor.runIndex := by
  obtain ⟨c, started, isOpen, begun⟩ := Tour.Keeps.start name decodes
  have kept := begun.perform uses
  have still := (Tour.isSome_source_perform uses ⟨c, []⟩).trans (and_iff_right isOpen)
  refine ⟨c, started, ?_⟩
  generalize Tour.perform uses ⟨c, []⟩ = t at kept still
  refine ⟨kept.terms, ?_, ?_, kept.each, ?_, ?_, ?_⟩
  · exact Nat.le.intro kept.count
  · have ended : t.cursor.remainingTerms = 0 ↔ t.visits.length = header.termCount.toNat := by
      have count := kept.count
      omega
    rw [← ended, hasNext, Bool.and_eq_false_iff, ← Bool.not_eq_true, still, Decidable.not_not,
      bne_eq_false_iff_eq]
  · exact fun v here => ⟨(kept.current v here).term_eq, (kept.current v here).statistics_eq⟩
  · intro none
    have spent := (kept.before none).2
    unfold nextPosting
    rw [spent]
    cases t.cursor.source <;> rfl
  · intro e c' failed
    obtain ⟨source, same, rfl⟩ := advance_eq_error failed
    exact ⟨rfl, rfl, by rw [hasNext, hasNext, same], rfl⟩

/-- The header of a run with three terms and one field. -/
def unrulyHeader : RunHeader := ⟨0, ⟨1, false⟩, 3, 2, 9, 5⟩

/-- Of the first term of this run the second posting is out of range and the third one is not in
order, and the second term does not follow the first one. -/
def unrulyRun : List UInt8 :=
  unrulyHeader.encode ++
    EntryHead.encode ⟨[98], ⟨3, 3, [3], none, none⟩, 36⟩ ++
    Posting.encode ⟨1, false⟩ ⟨4, 1, [1], []⟩ ++ Posting.encode ⟨1, false⟩ ⟨12, 1, [1], []⟩ ++
    Posting.encode ⟨1, false⟩ ⟨2, 1, [1], []⟩ ++
    EntryHead.encode ⟨[97], ⟨1, 1, [1], none, none⟩, 0⟩ ++
    EntryHead.encode ⟨[99], ⟨1, 1, [1], none, none⟩, 12⟩ ++
    Posting.encode ⟨1, false⟩ ⟨7, 1, [1], []⟩

/-- The third posting of the first term is asked for after the postings were begun again, and the
cursor is advanced past the term that it refuses. -/
def unrulyUses : List Use :=
  [.nextPosting, .advance, .nextPosting, .nextPosting, .openPostings, .nextPosting, .nextPosting,
    .advance, .advance, .nextPosting, .close, .advance, .nextPosting]

/-- Two of the three terms and three of the five postings of this run are shown. -/
theorem contract_of_uses_unrulyRun :
    ∃ c, start "a" (.ofList unrulyRun) = .ok c ∧
      let t := Tour.perform unrulyUses ⟨c, []⟩
      t.visits = [⟨[99], ⟨1, 1, [1], none, none⟩, [[⟨7, 1, [1], []⟩]]⟩,
        ⟨[98], ⟨3, 3, [3], none, none⟩, [[⟨2, 1, [1], []⟩], [⟨4, 1, [1], []⟩]]⟩] ∧
      (∀ v ∈ t.visits, v.Sound unrulyHeader) ∧ t.visits.length ≤ 3 ∧ t.cursor.hasNext = false := by
  have decodes : RunHeader.decode (.ofList unrulyRun) = (.ok unrulyHeader, _) := rfl
  obtain ⟨c, started, -, count, ended, each, -⟩ := contract_of_uses decodes "a" unrulyUses
  refine ⟨c, started, ?_, each, count, ended.mpr (.inl (by decide))⟩
  have same : start "a" (.ofList unrulyRun) = .ok _ := rfl
  obtain rfl := Except.ok.inj (same.symm.trans started)
  decide +kernel

end StoredCursor

end IndexMerge
