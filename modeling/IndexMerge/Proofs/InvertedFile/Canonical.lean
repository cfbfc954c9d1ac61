import IndexMerge.Proofs.Bits.Exact
import IndexMerge.Proofs.InvertedFile.Writer

/-!
# Posting lists have one code

Every number, gap, posting and list that is read is read from its own code, so bits from which a
list is read are the bits that a writer of the same layout writes for the list
(`readPostings_canonical`).
-/

namespace IndexMerge

open Attempt BitReader

namespace PostingReader

variable {layout : Layout}

theorem exact_narrow (part : PostingPart) (value : Nat) :
    Exact (narrow part value) fun code number => code = [] ∧ number.toNat = value := by
  unfold narrow
  by_cases short : value < UInt32.size
  · rw [if_pos short]
    exact Exact.pure ⟨rfl, UInt32.toNat_ofNat_of_lt' short⟩
  · rw [if_neg short]
    exact Exact.throw _

/-- A gap leads to a number behind the last one. -/
theorem exact_readGap (part : PostingPart) (last : Option UInt32) :
    Exact (readGap part last) fun code value =>
      last.filter (value ≤ ·) = none ∧ code = gapCode last value := by
  unfold readGap
  refine exact_readGamma.bind ?_
  rintro _ gap ⟨positive, -, rfl⟩
  cases last with
  | none =>
    refine (exact_narrow part (gap - 1)).mono ?_
    rintro _ value ⟨rfl, shift⟩
    refine ⟨rfl, ?_⟩
    rw [List.append_nil, gapCode, shift, Nat.sub_add_cancel (Nat.one_le_iff_ne_zero.mpr positive)]
  | some last =>
    refine (exact_narrow part (last.toNat + gap)).mono ?_
    rintro _ value ⟨rfl, sum⟩
    have less : last < value := by
      rw [UInt32.lt_iff_toNat_lt]
      omega
    refine ⟨by simpa [Option.filter_some, UInt32.not_le] using less, ?_⟩
    rw [List.append_nil, gapCode, sum, Nat.add_sub_cancel_left]

theorem exact_readBlocks (count : Nat) (last : Option UInt32) (done : Array UInt32) :
    Exact (readBlocks count last done) fun code blocks => ∃ new, blocks = done.toList ++ new ∧
      new.length = count ∧ isAscendingAfter last new = true ∧ code = blocksCode last new := by
  induction count generalizing last done with
  | zero =>
    intro bits bits' blocks given
    cases given
    exact ⟨[], ⟨[], by simp, rfl, isAscendingAfter_nil last, rfl⟩, Traceable.nil_takes bits⟩
  | succ count ih =>
    intro bits bits' blocks given
    rw [readBlocks] at given
    split at given
    · rename_i block next asked
      obtain ⟨_, ⟨follows, rfl⟩, front⟩ := exact_readGap .block last bits next block asked
      obtain ⟨_, ⟨new, rfl, rfl, ascending, rfl⟩, behind⟩ := ih _ _ next bits' blocks given
      refine ⟨blocksCode last (block :: new), ⟨block :: new, by simp, rfl, ?_, rfl⟩,
        Traceable.append_takes front behind⟩
      exact isAscendingAfter_cons.mpr ⟨follows, ascending⟩
    · cases given

theorem exact_readField :
    Exact readField fun code frequency => True ∧ code = gammaCode (frequency.toNat + 1) := by
  unfold readField
  refine exact_readGamma.bind ?_
  rintro _ number ⟨positive, -, rfl⟩
  refine (exact_narrow .fieldFrequency (number - 1)).mono ?_
  rintro _ frequency ⟨rfl, shift⟩
  rw [shift, Nat.sub_add_cancel (Nat.one_le_iff_ne_zero.mpr positive), List.append_nil]
  exact ⟨trivial, rfl⟩

/-- A posting that is read fits the layout and follows the last one. -/
theorem exact_readPosting (layout : Layout) (last : Option UInt32) :
    Exact (readPosting layout last) fun code p =>
      p.Fits layout ∧ last.filter (p.docId ≤ ·) = none ∧ code = p.code layout last := by
  unfold readPosting
  refine (exact_readGap .docId last).bind ?_
  rintro _ docId ⟨follows, rfl⟩
  refine exact_readGamma.bind ?_
  rintro _ number ⟨positive, -, rfl⟩
  refine (exact_narrow .frequency number).bind ?_
  rintro _ frequency ⟨rfl, rfl⟩
  have occurs : frequency ≠ 0 := by
    rintro rfl
    exact positive rfl
  refine (exact_readField.times layout.fieldCount.toNat).bind ?_
  rintro _ fieldFrequencies ⟨fields, -, rfl⟩
  cases has : layout.blocks with
  | true =>
    refine exact_readGamma.bind ?_
    rintro _ count ⟨positive, -, rfl⟩
    refine (exact_readBlocks (count - 1) none #[]).bind ?_
    rintro _ blocks ⟨_, rfl, length, ascending, rfl⟩
    refine Exact.pure ⟨⟨occurs, fields, by simp [has], ascending⟩, follows, ?_⟩
    have counted : blocks.length + 1 = count := by omega
    rw [Posting.code, if_pos has]
    simp [counted]
  | false =>
    have none : Exact (pure [] : Attempt Error BitReader (List UInt32)) fun code blocks =>
        code = [] ∧ blocks = [] := Exact.pure ⟨rfl, rfl⟩
    refine none.bind ?_
    rintro _ _ ⟨rfl, rfl⟩
    refine Exact.pure ⟨⟨occurs, fields, fun _ => rfl, rfl⟩, follows, ?_⟩
    rw [Posting.code, if_neg (by simp [has])]
    simp

theorem exact_readOnto (count : Nat) (last : Option UInt32) (done : Array Posting) :
    Exact (readOnto layout count last done) fun code postings => ∃ new,
      postings = done.toList ++ new ∧ new.length = count ∧ (∀ p ∈ new, p.Fits layout) ∧
      isAscendingAfter last (new.map Posting.docId) = true ∧
      code = postingsCode layout last new := by
  induction count generalizing last done with
  | zero =>
    intro bits bits' postings given
    cases given
    exact ⟨[], ⟨[], by simp, rfl, by simp, isAscendingAfter_nil last, rfl⟩,
      Traceable.nil_takes bits⟩
  | succ count ih =>
    intro bits bits' postings given
    rw [readOnto] at given
    split at given
    · rename_i p next asked
      obtain ⟨_, ⟨fits, follows, rfl⟩, front⟩ := exact_readPosting layout last bits next p asked
      obtain ⟨_, ⟨new, rfl, rfl, all, ascending, rfl⟩, behind⟩ := ih _ _ next bits' postings given
      refine ⟨postingsCode layout last (p :: new), ⟨p :: new, by simp, rfl, ?_, ?_, rfl⟩,
        Traceable.append_takes front behind⟩
      · exact List.forall_mem_cons.mpr ⟨fits, all⟩
      · exact isAscendingAfter_cons.mpr ⟨follows, ascending⟩
    · cases given

end PostingReader

/-- The bits of a byte string between two places. -/
def bitsBetween (data : Array UInt8) (start stop : BitPosition) : List Bool :=
  ((bytesBits data.toList).take stop.toBits).drop start.toBits

/-- What a reader took is between the place where it stood and the place where it stands. -/
theorem bitsBetween_of_takes {data : Array UInt8} {start : BitPosition} {before after : BitReader}
    {code : List Bool} (placed : BitReader.at? data start = .ok before)
    (taken : Readable.Takes code before after) :
    start.toBits + code.length = after.position.toBits ∧
      bitsBetween data start after.position = code := by
  unfold BitReader.at? at placed
  split at placed
  · cases placed
  · split at placed
    · cases placed
    · cases placed
      obtain ⟨⟨rest, front⟩, rfl⟩ := taken
      have stop : (BitReader.skip ⟨data, start.toBits⟩ code.length).position.toBits =
          start.toBits + code.length := BitPosition.toBits_ofBits _
      have here : (bytesBits data.toList).drop start.toBits = code ++ rest := front
      refine ⟨stop.symm, ?_⟩
      rw [bitsBetween, stop, List.drop_take, Nat.add_sub_cancel_left, here, List.take_left]

/-- A writer that takes bits writes the code of a list whose postings fit and ascend. -/
theorem PostingWriter.write_eq_ok {W : Type} [ByteSink W] [FaithfulSink W] {w : PostingWriter W}
    {postings : List Posting} (isOpen : w.isClosed = false) (ready : w.bits.Ready)
    (fits : ∀ p ∈ postings, w.layout.check p = .ok ())
    (ascending : isAscending (postings.map Posting.docId) = true) :
    ∃ w', write postings w = (.ok w.position, [], w') ∧
      w'.bits.written = w.bits.written ++ postingsCode w.layout none postings := by
  have ascending : isAscendingAfter none (postings.map Posting.docId) = true := ascending
  obtain ⟨bits, emits, -, written⟩ := emits_code ready fits ascending
  refine ⟨{ w with bits }, ?_, written⟩
  unfold write
  rw [if_neg (by simp [isOpen]), drain_of_yields (PostingSource.yields_self postings) emits]

/-- A list that is read, whatever the bytes are and wherever in them it begins, has as many postings
as were asked for, with ascending documents, and all of them fit the layout. The reader took the
bits up to the place where it ends, and these are just the bits that any writer of the layout adds
for the list. -/
theorem readPostings_canonical {data : Array UInt8} {start : BitPosition} {count : Nat}
    {layout : Layout} {postings : List Posting}
    (read : readPostings data start count layout = .ok postings) :
    postings.length = count ∧ (postings.map Posting.docId).Pairwise (· < ·) ∧
    (∀ p ∈ postings, layout.check p = .ok ()) ∧
    ∃ before after, BitReader.at? data start = .ok before ∧
      PostingReader.readOnto layout count none #[] before = (.ok postings, after) ∧
      start.toBits + (bitsBetween data start after.position).length = after.position.toBits ∧
      ∀ {W : Type} [ByteSink W] [FaithfulSink W] (w : PostingWriter W), w.isClosed = false →
        w.layout = layout → w.bits.Ready →
        ∃ w', PostingWriter.write postings w = (.ok w.position, [], w') ∧
          w'.bits.written = w.bits.written ++ bitsBetween data start after.position := by
  unfold readPostings at read
  cases placed : BitReader.at? data start with
  | error e =>
    rw [placed] at read
    cases read
  | ok before =>
    rw [placed] at read
    have read : (PostingReader.readOnto layout count none #[] before).1 = .ok postings := read
    have given : PostingReader.readOnto layout count none #[] before =
        (.ok postings, (PostingReader.readOnto layout count none #[] before).2) :=
      Prod.ext read rfl
    obtain ⟨code, ⟨_, rfl, length, fits, ascending, rfl⟩, taken⟩ :=
      PostingReader.exact_readOnto count none #[] _ _ _ given
    have ⟨stop, between⟩ := bitsBetween_of_takes placed taken
    have ascending : isAscending (postings.map Posting.docId) = true := ascending
    have fits : ∀ p ∈ postings, layout.check p = .ok () := fun p member =>
      Layout.check_eq_ok_iff.mpr (fits p member)
    refine ⟨length, isAscending_iff_pairwise.mp ascending, fits, before, _, rfl, given, ?_, ?_⟩
    · rw [between]
      exact stop
    · intro W _ _ w isOpen layout_eq ready
      rw [between]
      subst layout_eq
      exact PostingWriter.write_eq_ok isOpen ready fits ascending

/-- Two postings, of which the second has no blocks. -/
def twoPostings : List Posting := [⟨2, 3, [1], [0, 4]⟩, ⟨5, 1, [0], []⟩]

/-- The code of the two postings behind three bits of another list, and some bits more. -/
def twoPostingsData : Array UInt8 := #[0xad, 0xa7, 0x23, 0xf6]

/-- Read from the fourth bit on, the two postings are written into an empty buffer as they were. -/
theorem readPostings_canonical_twoPostings :
    readPostings twoPostingsData ⟨0, 3⟩ 2 ⟨1, true⟩ = .ok twoPostings ∧
    ∃ after, (∃ before, BitReader.at? twoPostingsData ⟨0, 3⟩ = .ok before ∧
      PostingReader.readOnto ⟨1, true⟩ 2 none #[] before = (.ok twoPostings, after)) ∧
      ∃ w', PostingWriter.write twoPostings (.start 1 (#[] : Array UInt8) ⟨1, true⟩) =
          (.ok ⟨0, 0⟩, [], w') ∧
        w'.bits.written = bitsBetween twoPostingsData ⟨0, 3⟩ after.position := by
  have fits : ∀ p ∈ twoPostings, p.Fits ⟨1, true⟩ := by
    simp only [twoPostings, List.forall_mem_cons, List.not_mem_nil, false_imp_iff, implies_true,
      and_true]
    exact ⟨⟨by decide, rfl, by simp, by decide⟩, ⟨by decide, rfl, by simp, by decide⟩⟩
  have stored : bytesBits twoPostingsData.toList = [true, false, true] ++
      (postingsCode ⟨1, true⟩ none twoPostings ++ [true, false, true, true, false]) := by decide
  have read : readPostings twoPostingsData ⟨0, 3⟩ 2 ⟨1, true⟩ = .ok twoPostings :=
    readPostings_eq_ok fits (by decide) (by decide) stored
  obtain ⟨-, -, -, before, after, placed, given, -, writes⟩ := readPostings_canonical read
  have ⟨ready, nothing⟩ := BitWriter.ready_start 1 fresh_array
  obtain ⟨w', written, bits⟩ := writes (.start 1 #[] ⟨1, true⟩) rfl rfl ready
  have empty : (PostingWriter.start 1 (#[] : Array UInt8) ⟨1, true⟩).bits.written = [] := nothing
  rw [empty, List.nil_append] at bits
  exact ⟨read, after, ⟨before, placed, given⟩, w', written, bits⟩

end IndexMerge
