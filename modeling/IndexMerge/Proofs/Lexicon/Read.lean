import IndexMerge.Lexicon.Reader
import IndexMerge.Proofs.Lexicon.Written
import IndexMerge.Proofs.Run.Record

/-!
# Reading a lexicon back

From the bytes of a finished lexicon a reader gives the entries that were written, one by one, and
is done behind them (`items_eq`).
-/

namespace IndexMerge

open Attempt Decode LexiconFormat

variable {layout : Layout}

theorem LexiconFormat.reads_decodeHeader (layout : Layout) :
    Reads decodeHeader (header layout) layout := by
  unfold decodeHeader header
  simp only [List.append_assoc]
  refine (reads_u32 magic).bind ?_
  refine (reads_require (by decide) _).after ?_
  refine (reads_u16 version).bind ?_
  refine (reads_require (by decide) _).after ?_
  refine (reads_u16 _).bind ?_
  refine (reads_u16 _).last ?_
  refine (reads_require (flags_le _) _).after ?_
  rw [flags_eq]
  exact Reads.pure layout

/-- What an entry has to be like to be read back. -/
structure LexiconEntry.Storable (layout : Layout) (e : LexiconEntry) : Prop where
  term : e.term.length ≤ Term.maxLength
  fields : e.statistics.fieldFrequencies.length = layout.fieldCount.toNat
  placed : ∃ id pointer, e.statistics.termId = some id ∧ e.statistics.pointer = some pointer ∧
    pointer.byte < UInt64.size ∧ pointer.bit < 8

namespace LexiconReader

theorem reads_decodeTag (tag : UInt8) : Reads decodeTag [tag] tag := by
  rintro s t rfl
  simp [decodeTag, ByteSource.take, ofLittleEndian]

/-- An entry behind its tag is read. -/
theorem reads_decodeNext {e : LexiconEntry} (storable : e.Storable layout) (count : Nat) :
    Reads (decodeNext layout count) e.encode (some e) := by
  obtain ⟨id, ⟨byte, bit⟩, termId, place, bytes, bits⟩ := storable.placed
  obtain ⟨short, fields, _⟩ := storable
  rw [LexiconEntry.encode, termId, place]
  obtain ⟨term, ⟨documentFrequency, frequency, fieldFrequencies, _, _⟩⟩ := e
  cases termId
  cases place
  dsimp only at short fields bytes bits
  have length : (UInt16.ofNat term.length).toNat = term.length := by
    rw [UInt16.toNat_ofNat']
    exact Nat.mod_eq_of_lt (Nat.lt_succ_of_le short)
  have text : Reads (Decode.bytes (UInt16.ofNat term.length).toNat) term term := by
    rw [length]
    exact reads_bytes term
  have frequencies : Reads (Decode.u64.times layout.fieldCount.toNat)
      (fieldFrequencies.flatMap bytes64) fieldFrequencies := by
    rw [← fields]
    exact reads_times fun f _ => reads_u64 f
  have bitNumber : (UInt8.ofNat bit).toNat = bit :=
    UInt8.toNat_ofNat_of_lt' (Nat.lt_trans bits (by decide))
  have bitShort : decide (UInt8.ofNat bit < 8) = true := by
    rw [decide_eq_true_eq, UInt8.lt_iff_toNat_lt, bitNumber]
    exact bits
  have body : Reads (decodeEntry layout.fieldCount)
      (bytes16 (UInt16.ofNat term.length) ++ (term ++ (bytes32 id ++ (bytes32 documentFrequency ++
        (bytes64 frequency ++ (fieldFrequencies.flatMap bytes64 ++
          (toLittleEndian 8 byte ++ [UInt8.ofNat bit])))))))
      ⟨term, documentFrequency, frequency, fieldFrequencies, some id, some ⟨byte, bit⟩⟩ := by
    unfold decodeEntry
    refine (reads_u16 _).bind ?_
    refine text.bind ?_
    refine (reads_u32 _).bind ?_
    refine (reads_u32 _).bind ?_
    refine (reads_u64 _).bind ?_
    refine frequencies.bind ?_
    refine (@reads_word 8 _ bytes).bind ?_
    refine (reads_u8 (Nat.lt_trans bits (by decide))).last ?_
    refine (reads_require bitShort _).after ?_
    rw [bitNumber]
    exact Reads.pure _
  unfold entry
  simp only [List.append_assoc, List.cons_append]
  exact (reads_decodeTag entryTag).bind (body.map some)

/-- The trailer is read behind as many entries as it counts. -/
theorem reads_trailer {count : Nat} (short : count < UInt64.size) :
    Reads (decodeNext layout count) (trailer count) none := by
  refine (reads_decodeTag trailerTag).bind ?_
  refine (@reads_word 8 _ short).last ?_
  exact (reads_require (beq_self_eq_true count) _).after (Reads.pure _)

/-- An entry that can be stored is decoded, whatever is behind it. -/
theorem decodeNext_entry {e : LexiconEntry} (storable : e.Storable layout) (count : Nat)
    (rest : List UInt8) :
    decodeNext layout count (.ofList (e.encode ++ rest)) = (.ok (some e), .ofList rest) :=
  (reads_decodeNext storable count).source rest none

/-- A trailer that counts the entries ends them. -/
theorem decodeNext_trailer {count : Nat} (short : count < UInt64.size) :
    decodeNext layout count (.ofList (trailer count)) = (.ok none, .ofList []) := by
  have read := (@reads_trailer layout _ short).source [] none
  rwa [List.append_nil] at read

theorem go_eq {entries : List LexiconEntry} (storable : ∀ e ∈ entries, e.Storable layout)
    (count : Nat) (short : count + entries.length < UInt64.size)
    (done : Array (Except Error LexiconEntry)) :
    items.go layout count
        (.ofList (entries.flatMap LexiconEntry.encode ++ trailer (count + entries.length))) done =
      done.toList ++ entries.map .ok := by
  induction entries generalizing count done with
  | nil =>
    have read := @decodeNext_trailer layout _ short
    unfold items.go
    split
    · rename_i found
      cases found.symm.trans read
    · rw [List.map_nil, List.append_nil]
    · rename_i found
      cases found.symm.trans read
  | cons e entries ih =>
    have read := decodeNext_entry (storable e (List.mem_cons_self ..)) count
      (entries.flatMap LexiconEntry.encode ++ trailer (count + (e :: entries).length))
    have behind : count + (e :: entries).length = count + 1 + entries.length := by
      rw [List.length_cons]
      omega
    rw [behind] at short
    rw [List.flatMap_cons, List.append_assoc]
    unfold items.go
    split
    · rename_i found
      cases found.symm.trans read
      have rest := ih (fun other listed => storable other (List.mem_cons_of_mem _ listed))
        (count + 1) short (done.push (.ok e))
      rw [behind]
      refine rest.trans ?_
      rw [Array.toList_push, List.append_assoc]
      rfl
    · rename_i found
      cases found.symm.trans read
    · rename_i found
      cases found.symm.trans read

theorem start_of_decode {source rest : ByteSource}
    (decoded : decodeHeader source = (.ok layout, rest)) :
    start source = .ok ⟨rest, layout, 0, false⟩ := by
  rw [start, decoded]

/-- A reader that starts is behind the header. -/
theorem start_header (layout : Layout) (rest : List UInt8) :
    start (.ofList (header layout ++ rest)) = .ok ⟨.ofList rest, layout, 0, false⟩ :=
  start_of_decode ((reads_decodeHeader layout).source rest none)

/-- The lexicon of some entries is read as its layout and these entries. -/
theorem items_eq {entries : List LexiconEntry} (storable : ∀ e ∈ entries, e.Storable layout)
    (short : entries.length < UInt64.size) :
    ∃ r, start (.ofList (header layout ++
        (entries.flatMap LexiconEntry.encode ++ trailer entries.length))) = .ok r ∧
      r.layout = layout ∧ r.items = entries.map .ok := by
  have all := go_eq storable 0 (by rwa [Nat.zero_add]) #[]
  rw [Nat.zero_add] at all
  exact ⟨_, start_header layout _, rfl, all⟩

end LexiconReader

end IndexMerge
