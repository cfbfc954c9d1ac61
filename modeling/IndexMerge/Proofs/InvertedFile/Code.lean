import IndexMerge.InvertedFile.Code
import IndexMerge.InvertedFile.Reader
import IndexMerge.Proofs.Bits.Reader
import IndexMerge.Proofs.Posting.Ascending
import IndexMerge.Proofs.Posting.Layout

/-!
# Reading posting lists back

The code of a list is read as the list, given the number of its postings, whatever is behind it
(`readPostings_eq_ok`).
-/

namespace IndexMerge

open Attempt BitReader

namespace PostingReader

theorem reads_narrow (part : PostingPart) (value : UInt32) :
    Reads (narrow part value.toNat) [] value := by
  unfold narrow
  rw [if_pos value.toNat_lt, UInt32.ofNat_toNat]
  exact Reads.pure value

/-- A gap is read as the number that it leads to. -/
theorem reads_readGap (part : PostingPart) {last : Option UInt32} {value : UInt32}
    (follows : last.filter (value ≤ ·) = none) :
    Reads (readGap part last) (gapCode last value) value := by
  have bound := value.toNat_lt
  unfold readGap gapCode
  cases last with
  | none =>
    apply (reads_readGamma (Nat.succ_ne_zero _) (by omega)).last
    exact reads_narrow part value
  | some last =>
    have less : last.toNat < value.toNat := by
      simpa [Option.filter_some, UInt32.not_le, UInt32.lt_iff_toNat_lt] using follows
    apply (reads_readGamma (by omega) (by omega)).last
    have sum : last.toNat + (value.toNat - last.toNat) = value.toNat := by omega
    simp only [sum]
    exact reads_narrow part value

theorem reads_readBlocks {blocks : List UInt32} {last : Option UInt32} (done : Array UInt32)
    (ascending : isAscendingAfter last blocks = true) :
    Reads (readBlocks blocks.length last done) (blocksCode last blocks)
      (done.toList ++ blocks) := by
  induction blocks generalizing last done with
  | nil =>
    intro bits bits' taken
    rw [Readable.takes_nil taken, List.append_nil]
    rfl
  | cons block blocks ih =>
    intro bits bits' taken
    have ⟨follows, ascending⟩ := isAscendingAfter_cons.mp ascending
    obtain ⟨next, front, behind⟩ := Readable.takes_append taken
    rw [List.length_cons, readBlocks, reads_readGap .block follows bits next front]
    have rest := ih (done.push block) ascending next bits' behind
    simpa using rest

theorem reads_readField (frequency : UInt32) :
    Reads readField (gammaCode (frequency.toNat + 1)) frequency := by
  have bound := frequency.toNat_lt
  apply (reads_readGamma (Nat.succ_ne_zero _) (by omega)).last
  exact reads_narrow .fieldFrequency frequency

/-- The code of a posting that fits is read as the posting. -/
theorem reads_readPosting {layout : Layout} {p : Posting} {last : Option UInt32}
    (fits : p.Fits layout) (short : p.blocks.length ≤ UInt32.size)
    (follows : last.filter (p.docId ≤ ·) = none) :
    Reads (readPosting layout last) (p.code layout last) p := by
  have bound := p.frequency.toNat_lt
  have positive : p.frequency.toNat ≠ 0 := by
    intro zero
    exact fits.frequency_ne (UInt32.toNat_inj.mp zero)
  have fields : Reads (readField.times layout.fieldCount.toNat)
      (p.fieldFrequencies.flatMap fun f => gammaCode (f.toNat + 1)) p.fieldFrequencies := by
    rw [← fits.fields]
    exact reads_times fun f _ => reads_readField f
  unfold readPosting Posting.code
  rw [List.append_assoc, List.append_assoc]
  refine (reads_readGap .docId follows).bind ?_
  refine (reads_readGamma positive (by omega)).bind ?_
  refine (reads_narrow .frequency p.frequency).after ?_
  refine fields.bind ?_
  cases has : layout.blocks with
  | true =>
    have size : UInt32.size = 2 ^ 32 := rfl
    refine (reads_readGamma (Nat.succ_ne_zero _) (by omega)).bind ?_
    have ascending : isAscendingAfter none p.blocks = true := fits.ascending
    exact (reads_readBlocks #[] ascending).last (Reads.pure p)
  | false =>
    have none := fits.blocks_eq has
    refine (Reads.pure ([] : List UInt32)).last ?_
    rw [← none]
    exact Reads.pure p

theorem reads_readOnto {layout : Layout} {postings : List Posting} {last : Option UInt32}
    (done : Array Posting) (fits : ∀ p ∈ postings, p.Fits layout)
    (short : ∀ p ∈ postings, p.blocks.length ≤ UInt32.size)
    (ascending : isAscendingAfter last (postings.map Posting.docId) = true) :
    Reads (readOnto layout postings.length last done) (postingsCode layout last postings)
      (done.toList ++ postings) := by
  induction postings generalizing last done with
  | nil =>
    intro bits bits' taken
    rw [Readable.takes_nil taken, List.append_nil]
    rfl
  | cons p postings ih =>
    intro bits bits' taken
    have ⟨follows, ascending⟩ := isAscendingAfter_cons.mp ascending
    obtain ⟨next, front, behind⟩ := Readable.takes_append taken
    have first := reads_readPosting (fits p (by simp)) (short p (by simp)) follows bits next front
    rw [List.length_cons, readOnto, first]
    have rest := ih (done.push p) (fun q member => fits q (by simp [member]))
      (fun q member => short q (by simp [member])) ascending next bits' behind
    simpa using rest

end PostingReader

/-- A list is read back from where its code begins in a byte string. -/
theorem readPostings_eq_ok {layout : Layout} {postings : List Posting} {data : Array UInt8}
    {front rest : List Bool} (fits : ∀ p ∈ postings, p.Fits layout)
    (short : ∀ p ∈ postings, p.blocks.length ≤ UInt32.size)
    (ascending : isAscending (postings.map Posting.docId) = true)
    (stored : bytesBits data.toList = front ++ (postingsCode layout none postings ++ rest)) :
    readPostings data (.ofBits front.length) postings.length layout = .ok postings := by
  have size : front.length + (postingsCode layout none postings ++ rest).length =
      8 * data.size := by
    rw [← Array.length_toList, ← length_bytesBits, stored, ← List.length_append]
  rw [List.length_append] at size
  have here : ahead ⟨data, front.length⟩ = postingsCode layout none postings ++ rest := by
    rw [ahead, stored, List.drop_left]
  have ascending : isAscendingAfter none (postings.map Posting.docId) = true := ascending
  have read := PostingReader.reads_readOnto #[] fits short ascending
    ⟨data, front.length⟩ _ ⟨⟨rest, here⟩, rfl⟩
  unfold readPostings
  rw [at?_ofBits (by omega)]
  show (PostingReader.readOnto layout postings.length none #[] ⟨data, front.length⟩).1 = _
  rw [read]
  rfl

end IndexMerge
