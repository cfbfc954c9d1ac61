import IndexMerge.Proofs.Lexicon.Grammar

/-!
# Lexicons that were cut

An entry tells by its first bytes how many follow, so bytes that begin with the bytes of one entry
begin with no other record (`decodeNext_of_cut`). From a part of a lexicon a reader therefore gives
the entries that fit it, and fails where it was cut (`breaks_of_cut`); without a trailer it never
comes to an end (`exists_breaks_of_prefix`).
-/

namespace IndexMerge

open Attempt Decode LexiconFormat

variable {layout : Layout}

namespace LexiconEntry

/-- What a writer checks of an entry by itself. -/
structure Shaped (layout : Layout) (e : LexiconEntry) : Prop where
  term : e.term.length ≤ Term.maxLength
  fields : e.statistics.fieldFrequencies.length = layout.fieldCount.toNat
  placed : ∃ id pointer, e.statistics.termId = some id ∧ e.statistics.pointer = some pointer

variable {e f : LexiconEntry}

theorem Storable.shaped (h : e.Storable layout) : e.Shaped layout := by
  obtain ⟨id, pointer, termId, place, -⟩ := h.placed
  exact ⟨h.term, h.fields, id, pointer, termId, place⟩

/-- An entry begins with its tag and the length of its term. -/
theorem encode_eq (shaped : e.Shaped layout) :
    ∃ body, e.encode = entryTag :: (bytes16 (UInt16.ofNat e.term.length) ++ body) := by
  obtain ⟨id, pointer, termId, place⟩ := shaped.placed
  rw [encode, termId, place]
  simp only [entry, List.cons_append, List.append_assoc]
  exact ⟨_, rfl⟩

/-- The length of an entry depends on that of its term only. -/
theorem length_encode (shaped : e.Shaped layout) :
    e.encode.length = e.term.length + 8 * layout.fieldCount.toNat + 28 := by
  obtain ⟨id, pointer, termId, place⟩ := shaped.placed
  have fields := length_flatMap_of_length length_bytes64 e.statistics.fieldFrequencies
  rw [shaped.fields] at fields
  rw [encode, termId, place]
  simp only [entry, List.length_append, List.length_cons, List.length_nil, fields, length_bytes16,
    length_bytes32, length_bytes64, length_toLittleEndian]
  omega

/-- Bytes begin with the bytes of one entry only. -/
theorem encode_append_inj (shaped : e.Shaped layout) (shaped' : f.Shaped layout)
    {more rest : List UInt8} (same : e.encode ++ more = f.encode ++ rest) :
    e.encode = f.encode ∧ more = rest := by
  have lengths : e.term.length = f.term.length := by
    obtain ⟨body, here⟩ := encode_eq shaped
    obtain ⟨body', there⟩ := encode_eq shaped'
    rw [here, there, List.cons_append, List.cons_append, List.append_assoc, List.append_assoc]
      at same
    have words := (List.append_inj (List.tail_eq_of_cons_eq same)
      (by simp)).1
    have read := congrArg ofLittleEndian words
    rw [bytes16, bytes16, ofLittleEndian_toLittleEndian (UInt16.toNat_lt _),
      ofLittleEndian_toLittleEndian (UInt16.toNat_lt _),
      UInt16.toNat_ofNat_of_lt' (Nat.lt_succ_of_le shaped.term),
      UInt16.toNat_ofNat_of_lt' (Nat.lt_succ_of_le shaped'.term)] at read
    exact read
  exact List.append_inj same (by rw [length_encode shaped, length_encode shaped', lengths])

/-- No bytes begin with both an entry and a trailer. -/
theorem encode_append_ne_trailer (shaped : e.Shaped layout) {total : Nat}
    {more rest : List UInt8} : e.encode ++ more ≠ trailer total ++ rest := by
  intro same
  obtain ⟨body, here⟩ := encode_eq shaped
  rw [here] at same
  cases (List.cons.inj same).1

/-- The place that an entry was given, if it has one, lies between two bits of a byte. -/
def IsPlaced (e : LexiconEntry) : Prop :=
  ∀ pointer, e.statistics.pointer = some pointer → pointer.bit < 8

/-- The place that an entry was given fits a word and a byte. -/
def Narrow (e : LexiconEntry) : Prop :=
  ∀ pointer, e.statistics.pointer = some pointer →
    pointer.byte < UInt64.size ∧ pointer.bit < UInt8.size

theorem Shaped.storable (shaped : e.Shaped layout) (narrow : e.Narrow) (isPlaced : e.IsPlaced) :
    e.Storable layout := by
  obtain ⟨id, pointer, termId, place⟩ := shaped.placed
  exact ⟨shaped.term, shaped.fields, id, pointer, termId, place, (narrow pointer place).1,
    isPlaced pointer place⟩

/-- The last byte of an entry is the bit offset of its place. -/
theorem isPlaced_of_encode_eq (storable : e.Storable layout) (narrow : f.Narrow)
    (same : e.encode = f.encode) : f.IsPlaced := by
  obtain ⟨id, pointer, termId, place, -, bit⟩ := storable.placed
  intro pointer' place'
  rw [encode, termId, place] at same
  rw [encode, place'] at same
  cases termId' : f.statistics.termId with
  | none =>
    rw [termId'] at same
    simp [entry] at same
  | some id' =>
    rw [termId'] at same
    have last := congrArg List.getLast? same
    simp only [entry, List.getLast?_concat, Option.some.injEq] at last
    have bits := congrArg UInt8.toNat last
    rw [UInt8.toNat_ofNat_of_lt' (Nat.lt_trans bit (by decide)),
      UInt8.toNat_ofNat_of_lt' (narrow pointer' place').2] at bits
    rwa [← bits]

end LexiconEntry

namespace LexiconReader

variable {source after : ByteSource} {count : Nat} {next : Option LexiconEntry}
  {more behind : List UInt8}

/-- From a part of bytes that begin with an entry only an entry of the same bytes is read. -/
theorem decodeNext_of_cut {e : LexiconEntry} (shaped : e.Shaped layout)
    (decoded : decodeNext layout count source = (.ok next, after))
    (cut : source.bytes ++ more = e.encode ++ behind) :
    ∃ b, next = some b ∧ b.Storable layout ∧ b.encode = e.encode ∧
      source.bytes = e.encode ++ after.bytes ∧ after.bytes ++ more = behind := by
  obtain ⟨bytes, record, rfl⟩ := exact_decodeNext layout count _ _ _ decoded
  have cut : bytes ++ after.bytes ++ more = e.encode ++ behind := cut
  cases next with
  | none =>
    obtain ⟨-, rfl⟩ := record
    rw [List.append_assoc] at cut
    exact absurd cut.symm (LexiconEntry.encode_append_ne_trailer shaped)
  | some b =>
    obtain ⟨storable, rfl⟩ := record
    rw [List.append_assoc] at cut
    have ⟨same, rest⟩ := LexiconEntry.encode_append_inj storable.shaped shaped cut
    exact ⟨b, rfl, storable, same, by rw [same], rest⟩

/-- A reader that cannot read a record fails and is done. -/
theorem breaks_of_error {e : Error} (failed : decodeNext layout count source = (.error e, after)) :
    Breaks ⟨source, layout, count, false⟩ [] e := by
  have stood := next_eq source layout count
  rw [failed] at stood
  exact gives_cons stood (gives_of_isDone rfl)

/-- Behind an entry a reader goes on as it would before the next record. -/
theorem Breaks.cons {b : LexiconEntry} {entries : List LexiconEntry} {e : Error}
    (decoded : decodeNext layout count source = (.ok (some b), after))
    (breaks : Breaks ⟨after, layout, count + 1, false⟩ entries e) :
    Breaks ⟨source, layout, count, false⟩ (b :: entries) e := by
  have stood := next_eq source layout count
  rw [decoded] at stood
  exact gives_cons stood breaks

/-- Where a trailer was cut, nothing is read. -/
theorem decodeNext_of_cut_trailer {total : Nat} (proper : more ≠ [])
    (cut : source.bytes ++ more = trailer total) :
    ∃ e after, decodeNext layout count source = (.error e, after) := by
  rcases decoded : decodeNext layout count source with ⟨e | next, after⟩
  · exact ⟨e, after, rfl⟩
  obtain ⟨bytes, record, rfl⟩ := exact_decodeNext layout count _ _ _ decoded
  have cut : bytes ++ after.bytes ++ more = trailer total := cut
  cases next with
  | none =>
    obtain ⟨-, rfl⟩ := record
    have lengths := congrArg List.length cut
    have := List.length_pos_iff.mpr proper
    simp only [trailer, List.length_append, List.length_cons, length_toLittleEndian] at lengths
    omega
  | some b =>
    obtain ⟨storable, rfl⟩ := record
    rw [List.append_assoc, ← List.append_nil (trailer total)] at cut
    exact absurd cut (LexiconEntry.encode_append_ne_trailer storable.shaped)

/-- From a part of the bytes of entries and their trailer a reader gives the entries whose bytes are
there, up to the first one with a place outside of a byte, and then fails. -/
theorem breaks_of_cut {entries : List LexiconEntry} (shaped : ∀ e ∈ entries, e.Shaped layout)
    (narrow : ∀ e ∈ entries, e.Narrow) {total : Nat}
    (cut : source.bytes ++ more = entries.flatMap LexiconEntry.encode ++ trailer total)
    (proper : more ≠ []) (count : Nat) :
    ∃ k e, k ≤ entries.length ∧ Breaks ⟨source, layout, count, false⟩ (entries.take k) e ∧
      ∀ j ≤ entries.length, ((entries.take j).flatMap LexiconEntry.encode <+: source.bytes ∧
        ∀ e ∈ entries.take j, e.IsPlaced) ↔ j ≤ k := by
  induction entries generalizing source count with
  | nil =>
    obtain ⟨e, after, failed⟩ := @decodeNext_of_cut_trailer layout _ count _ _ proper cut
    refine ⟨0, e, Nat.le_refl 0, breaks_of_error failed, ?_⟩
    intro j le
    simpa using le
  | cons e entries ih =>
    have ⟨shape, shaped⟩ := List.forall_mem_cons.mp shaped
    have ⟨small, narrow⟩ := List.forall_mem_cons.mp narrow
    rw [List.flatMap_cons, List.append_assoc] at cut
    rcases decoded : decodeNext layout count source with ⟨failure | next, after⟩
    · refine ⟨0, failure, Nat.zero_le _, breaks_of_error decoded, ?_⟩
      intro j _
      cases j with
      | zero => simp
      | succ j =>
        -- If the entry were there, it would have been read.
        refine iff_of_false ?_ (Nat.not_succ_le_zero j)
        rintro ⟨⟨rest, fits⟩, isPlaced⟩
        rw [List.take_succ_cons, List.flatMap_cons, List.append_assoc] at fits
        have storable := shape.storable small (isPlaced e (List.mem_cons_self ..))
        cases decoded.symm.trans ((reads_decodeNext storable count).of_bytes fits.symm)
    · obtain ⟨b, rfl, storable, same, front, rest⟩ := decodeNext_of_cut shape decoded cut
      have isPlaced := LexiconEntry.isPlaced_of_encode_eq storable small same
      have read := (reads_decodeNext (shape.storable small isPlaced) count).of_bytes front
      cases congrArg Prod.fst (decoded.symm.trans read)
      obtain ⟨k, failure, le, breaks, fit⟩ := ih shaped narrow rest (count + 1)
      refine ⟨k + 1, failure, Nat.succ_le_succ le, breaks.cons decoded, ?_⟩
      intro j below
      cases j with
      | zero => simp
      | succ j =>
        rw [List.take_succ_cons, List.flatMap_cons, front, List.prefix_append_right_inj,
          List.forall_mem_cons, and_iff_right isPlaced, fit j (Nat.le_of_succ_le_succ below),
          Nat.succ_le_succ_iff]

/-- Without a trailer behind them, entries are never read to an end. -/
theorem exists_breaks_of_prefix {entries : List LexiconEntry}
    (shaped : ∀ e ∈ entries, e.Shaped layout)
    (cut : source.bytes <+: entries.flatMap LexiconEntry.encode) (count : Nat) :
    ∃ given e, Breaks ⟨source, layout, count, false⟩ given e := by
  induction entries generalizing source count with
  | nil =>
    have empty := List.prefix_nil.mp cut
    rcases decoded : decodeNext layout count source with ⟨failure | next, after⟩
    · exact ⟨[], failure, breaks_of_error decoded⟩
    · have shorter := length_decodeNext decoded
      rw [empty] at shorter
      exact absurd shorter (Nat.not_lt_zero _)
  | cons e entries ih =>
    have ⟨shape, shaped⟩ := List.forall_mem_cons.mp shaped
    obtain ⟨more, cut⟩ := cut
    rw [List.flatMap_cons] at cut
    rcases decoded : decodeNext layout count source with ⟨failure | next, after⟩
    · exact ⟨[], failure, breaks_of_error decoded⟩
    · obtain ⟨b, rfl, -, -, -, rest⟩ := decodeNext_of_cut shape decoded cut
      obtain ⟨given, failure, breaks⟩ := ih shaped ⟨more, rest⟩ (count + 1)
      exact ⟨b :: given, failure, breaks.cons decoded⟩

end LexiconReader

end IndexMerge
