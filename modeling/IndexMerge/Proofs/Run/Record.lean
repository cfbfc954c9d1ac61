import IndexMerge.Proofs.Bytes.Reads
import IndexMerge.Proofs.Posting.Layout
import IndexMerge.Run.Stored

/-!
# Reading a stored run back

The header of a run, the heads of its entries and their postings are read from their bytes as they
were written. The size that is reckoned for a posting that was read is the number of its bytes
(`length_encode`).
-/

namespace IndexMerge

open Attempt Decode

/-- The flags word of a layout is read as whether it has blocks. -/
theorem flags_eq (blocks : Bool) : ((if blocks then 1 else 0 : UInt16) == 1) = blocks := by
  cases blocks <;> rfl

theorem flags_le (blocks : Bool) : decide ((if blocks then 1 else 0 : UInt16) ≤ 1) = true := by
  cases blocks <;> rfl

/-- A flags word that is accepted is that of a layout. -/
theorem eq_of_flags_le {flags : UInt16} (le : decide (flags ≤ 1) = true) :
    (if flags == 1 then 1 else 0) = flags := by
  have bound : flags.toNat ≤ 1 := UInt16.le_iff_toNat_le.mp (of_decide_eq_true le)
  rcases Nat.le_one_iff_eq_zero_or_eq_one.mp bound with zero | one
  · obtain rfl : flags = 0 := UInt16.toNat_inj.mp zero
    rfl
  · obtain rfl : flags = 1 := UInt16.toNat_inj.mp one
    rfl

theorem RunHeader.reads_decode {h : RunHeader} (range : h.firstDoc ≤ h.lastDoc) :
    Reads decode h.encode h := by
  unfold decode encode
  simp only [List.append_assoc]
  refine (reads_u32 magic).bind ?_
  refine (reads_require (by decide) _).after ?_
  refine (reads_u16 version).bind ?_
  refine (reads_require (by decide) _).after ?_
  refine (reads_u16 _).bind ?_
  refine (reads_u16 _).bind ?_
  refine (reads_require (flags_le _) _).after ?_
  refine (reads_u32 _).bind ?_
  refine (reads_u32 _).bind ?_
  refine (reads_u32 _).bind ?_
  refine (reads_u32 _).bind ?_
  refine (reads_u64 _).last ?_
  refine (reads_require (decide_eq_true range) _).after ?_
  rw [flags_eq]
  exact Reads.pure h

namespace Posting

variable {layout : Layout} {p : Posting}

/-- What a posting has to be like to be read back: it has the parts that the layout says, and few
enough of them to be counted. -/
structure Shaped (layout : Layout) (p : Posting) : Prop where
  fields : p.fieldFrequencies.length = layout.fieldCount.toNat
  blocks_eq : layout.blocks = false → p.blocks = []
  short : p.blocks.length < UInt32.size

theorem Fits.shaped (fits : p.Fits layout) (short : p.blocks.length < UInt32.size) :
    p.Shaped layout :=
  ⟨fits.fields, fits.blocks_eq, short⟩

/-- A posting is read from its bytes, and the size that is reckoned is its size. -/
theorem reads_decodeSized (shaped : p.Shaped layout) :
    Reads (decodeSized layout) (p.encode layout) (p, p.storedSize layout) := by
  have fields : Reads (Decode.u32.times layout.fieldCount.toNat)
      (p.fieldFrequencies.flatMap bytes32) p.fieldFrequencies := by
    rw [← shaped.fields]
    exact reads_times fun f _ => reads_u32 f
  have words := shaped.fields
  unfold decodeSized encode storedSize
  rw [List.append_assoc, List.append_assoc]
  refine (reads_u32 _).bind ?_
  refine (reads_u32 _).bind ?_
  refine fields.bind ?_
  cases has : layout.blocks with
  | true =>
    have count : (UInt32.ofNat p.blocks.length).toNat = p.blocks.length :=
      UInt32.toNat_ofNat_of_lt' shaped.short
    have blocks : Reads (Decode.u32.times (UInt32.ofNat p.blocks.length).toNat)
        (p.blocks.flatMap bytes32) p.blocks := by
      rw [count]
      exact reads_times fun b _ => reads_u32 b
    refine (reads_u32 _).bind ?_
    refine blocks.last ?_
    rw [count, ← words, if_pos rfl]
    exact Reads.pure _
  | false =>
    have none := shaped.blocks_eq has
    rw [if_neg Bool.false_ne_true, if_neg Bool.false_ne_true, if_neg Bool.false_ne_true, ← words,
      ← none]
    exact Reads.pure _

theorem reads_decode (shaped : p.Shaped layout) : Reads (decode layout) (p.encode layout) p :=
  (reads_decodeSized shaped).map Prod.fst

/-- The size that is reckoned for a posting is the number of its bytes. -/
theorem length_encode (layout : Layout) (p : Posting) :
    (p.encode layout).length = p.storedSize layout := by
  unfold encode storedSize
  have words := length_flatMap_of_length length_bytes32
  rw [List.length_append, List.length_append, List.length_append, words]
  cases layout.blocks with
  | true =>
    rw [if_pos rfl, List.length_append, words]
    simp
  | false => simp

end Posting

namespace EntryHead

variable {layout : Layout} {h : EntryHead}

/-- What a head has to be like to be read back. -/
structure Storable (layout : Layout) (h : EntryHead) : Prop where
  term : h.term.length ≤ Term.maxLength
  fields : h.statistics.fieldFrequencies.length = layout.fieldCount.toNat
  documents : h.statistics.documentFrequency ≠ 0
  termId : h.statistics.termId = none
  pointer : h.statistics.pointer = none
  size : h.postingBytes < UInt64.size

/-- The bytes of a head are read as the head, which is refused if it counts no documents. -/
theorem decode_encode (short : h.term.length ≤ Term.maxLength)
    (count : h.statistics.fieldFrequencies.length = layout.fieldCount.toNat)
    (termId : h.statistics.termId = none) (pointer : h.statistics.pointer = none)
    (size : h.postingBytes < UInt64.size) (rest : List UInt8) (fault : Option IoFault) :
    decode layout ⟨h.encode ++ rest, fault⟩ =
      (do
        Decode.require (h.statistics.documentFrequency != 0) .zeroDocumentFrequency
        return h) ⟨rest, fault⟩ := by
  obtain ⟨term, ⟨documentFrequency, frequency, fields, termId, pointer⟩, postingBytes⟩ := h
  dsimp only at short count termId pointer size
  obtain rfl := termId
  obtain rfl := pointer
  have length : (UInt16.ofNat term.length).toNat = term.length := by
    rw [UInt16.toNat_ofNat']
    exact Nat.mod_eq_of_lt (Nat.lt_succ_of_le short)
  have text : Reads (Decode.bytes (UInt16.ofNat term.length).toNat) term term := by
    rw [length]
    exact reads_bytes term
  have frequencies : Reads (Decode.u64.times layout.fieldCount.toNat)
      (fields.flatMap bytes64) fields := by
    rw [← count]
    exact reads_times fun f _ => reads_u64 f
  unfold decode encode encodeTerm
  simp only [List.append_assoc]
  rw [(reads_u16 _).bind_source, text.bind_source, (reads_u32 _).bind_source,
    (reads_u64 _).bind_source, frequencies.bind_source, (@reads_word 8 _ size).bind_source]

theorem reads_decode (storable : h.Storable layout) : Reads (decode layout) h.encode h := by
  rintro s ⟨rest, fault⟩ rfl
  rw [decode_encode storable.term storable.fields storable.termId storable.pointer storable.size]
  exact (reads_require (bne_iff_ne.mpr storable.documents) _).after (Reads.pure h) _ _ rfl

end EntryHead

namespace StoredCursor

/-- As many bytes as are pending are passed over. -/
theorem reads_skipPostings (term : Term) (bytes : List UInt8) :
    Reads (skipPostings term bytes.length) bytes () := by
  rintro s t rfl
  obtain ⟨rest, _ | fault⟩ := t <;>
    simp [skipPostings, ByteSource.skip, rename, bind_apply]

/-- A head whose term follows the last one is read. -/
theorem reads_decodeHead {layout : Layout} {last : Option Term} {head : EntryHead}
    (storable : head.Storable layout)
    (follows : ∀ term, last = some term → term.precedes head.term = true) :
    Reads (decodeHead layout last) head.encode head := by
  have none : last.filter (fun last => !last.precedes head.term) = none := by
    cases last with
    | none => rfl
    | some term => simp [Option.filter_some, follows term rfl]
  unfold decodeHead
  refine (EntryHead.reads_decode storable).last ?_
  rw [none]
  exact Reads.pure head

end StoredCursor

end IndexMerge
