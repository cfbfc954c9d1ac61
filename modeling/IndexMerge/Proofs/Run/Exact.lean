import IndexMerge.Proofs.Bytes.Exact
import IndexMerge.Proofs.Posting.Ascending
import IndexMerge.Proofs.Run.Built
import IndexMerge.Proofs.Run.Record
import IndexMerge.Proofs.Run.Statistics

/-!
# What is read from a part of a stored run

The decoders of a stored run accept nothing but what the encoders write (`exact_decode`). So they
are local: what they take they read as the value that they give, whatever is behind it, and a
decoder that succeeds on a part of the bytes of a run gives what was stored there. This holds of the
head of every entry whose postings ascend: their number is a word, or it is stored as zero, and then
the head is refused (`EntryHead.decode_of_cut`).
-/

namespace IndexMerge

open Attempt Decode

/-- A header is read from no bytes but those that it is written as. -/
theorem RunHeader.exact_decode :
    Exact decode fun code h => h.firstDoc ≤ h.lastDoc ∧ code = h.encode := by
  refine exact_u32.bind fun _ first isFirst => ?_
  refine (exact_require _ _).bind fun _ _ isMagic => ?_
  refine exact_u16.bind fun _ second isSecond => ?_
  refine (exact_require _ _).bind fun _ _ isVersion => ?_
  refine exact_u16.bind fun _ fieldCount isFieldCount => ?_
  refine exact_u16.bind fun _ flags isFlags => ?_
  refine (exact_require _ _).bind fun _ _ isFlag => ?_
  refine exact_u32.bind fun _ runIndex isRunIndex => ?_
  refine exact_u32.bind fun _ termCount isTermCount => ?_
  refine exact_u32.bind fun _ firstDoc isFirstDoc => ?_
  refine exact_u32.bind fun _ lastDoc isLastDoc => ?_
  refine exact_u64.bind fun _ postingCount isPostingCount => ?_
  refine (exact_require _ _).bind fun _ _ isRange => Exact.pure ?_
  obtain ⟨rfl, magical⟩ := isMagic
  obtain ⟨rfl, current⟩ := isVersion
  obtain ⟨rfl, le⟩ := isFlag
  obtain ⟨rfl, range⟩ := isRange
  subst isFirst isSecond isFieldCount isFlags isRunIndex isTermCount isFirstDoc isLastDoc
    isPostingCount
  refine ⟨of_decide_eq_true range, ?_⟩
  unfold encode
  rw [← beq_iff_eq.mp magical, ← beq_iff_eq.mp current, eq_of_flags_le le]
  simp only [List.append_assoc, List.append_nil, List.nil_append]

theorem RunHeader.local_decode : Local decode := by
  refine exact_decode.isLocal ?_
  rintro _ h ⟨range, rfl⟩
  exact reads_decode range

/-- A posting is read from no bytes but those that it is written as, whose number is reckoned. -/
theorem Posting.exact_decodeSized (layout : Layout) : Exact (decodeSized layout) fun code read =>
    read.1.Shaped layout ∧ read.2 = read.1.storedSize layout ∧ code = read.1.encode layout := by
  have words := fun count => Exact.times (P := fun _ => True)
    (exact_u32.mono fun _ _ same => ⟨trivial, same⟩) count
  refine exact_u32.bind fun _ docId first => ?_
  refine exact_u32.bind fun _ frequency second => ?_
  refine (words _).bind fun _ fieldFrequencies third => ?_
  obtain ⟨fields, -, rfl⟩ := third
  subst first second
  unfold encode storedSize
  cases has : layout.blocks with
  | true =>
    refine exact_u32.bind fun _ count fourth => ?_
    refine (words _).bind fun _ blocks fifth => Exact.pure ?_
    obtain ⟨length, -, rfl⟩ := fifth
    subst fourth
    have short := count.toNat_lt
    refine ⟨⟨fields, ?_, length ▸ short⟩, ?_, ?_⟩
    · intro none
      cases has.symm.trans none
    · rw [if_pos rfl, fields, length]
    · rw [if_pos rfl, length, UInt32.ofNat_toNat]
      simp only [List.append_assoc, List.append_nil]
  | false =>
    refine Exact.pure ⟨⟨fields, fun _ => rfl, (by decide : 0 < UInt32.size)⟩, ?_, ?_⟩
    · rw [if_neg Bool.false_ne_true, fields, Nat.add_zero]
    · simp only [List.append_assoc, List.append_nil, Bool.false_eq_true, if_false]

theorem Posting.exact_decode (layout : Layout) :
    Exact (decode layout) fun code p => p.Shaped layout ∧ code = p.encode layout :=
  (exact_decodeSized layout).map fun _ _ read => ⟨read.1, read.2.2⟩

theorem Posting.local_decode (layout : Layout) : Local (decode layout) := by
  refine (exact_decode layout).isLocal ?_
  rintro _ p ⟨shaped, rfl⟩
  exact reads_decode shaped

/-- The size that is reckoned while a posting is read is its size. -/
theorem Posting.decodeSized_eq (layout : Layout) :
    decodeSized layout = (fun p => (p, p.storedSize layout)) <$> decode layout := by
  funext s
  rw [decode, map_apply, map_apply]
  rcases read : decodeSized layout s with ⟨e | ⟨p, size⟩, t⟩
  · rfl
  · obtain ⟨_, ⟨-, reckoned, -⟩, -⟩ := exact_decodeSized layout s t (p, size) read
    obtain rfl : size = p.storedSize layout := reckoned
    rfl

/-- The next posting of a cursor is the one that is ahead, if its size is within what is pending. -/
theorem StoredCursor.nextPosting_decode (c : StoredCursor) : nextPosting c =
    match c.source, c.pendingPostings with
    | some source, pending + 1 =>
      match Posting.decode c.header.layout source with
      | (.error e, source) => (.error e, { c with source := some source })
      | (.ok p, source) =>
        let size := p.storedSize c.header.layout
        let c := { c with source := some source }
        if c.pendingBytes < size then
          (.error (.format (.postingsOverrun c.header.runIndex)), c)
        else
          let c := { c with pendingPostings := pending, pendingBytes := c.pendingBytes - size }
          match c.checkDoc p.docId with
          | .error e => (.error e, c)
          | .ok () => (.ok (some p), { c with lastDoc := some p.docId })
    | _, _ => (.ok none, c) := by
  unfold nextPosting
  cases c.source with
  | none => rfl
  | some source =>
    cases c.pendingPostings with
    | zero => rfl
    | succ pending =>
      dsimp only
      rw [Posting.decodeSized_eq, map_apply]
      rcases Posting.decode c.header.layout source with ⟨e | p, rest⟩
      · rfl
      · rfl

/-- A posting of which all can be read back. -/
structure Posting.Legible (layout : Layout) (p : Posting) : Prop where
  fits : p.Fits layout
  blocks : p.blocks.length < UInt32.size

/-- An entry of which each posting can be read back, if its head can be read. -/
structure RunEntry.Legible (layout : Layout) (e : RunEntry) : Prop where
  sound : e.Sound layout
  blocks : ∀ p ∈ e.postings, p.blocks.length < UInt32.size

theorem RunEntry.Legible.postings {layout : Layout} {e : RunEntry} (h : e.Legible layout) :
    ∀ p ∈ e.postings, p.Legible layout :=
  fun p member => ⟨Layout.check_eq_ok_iff.mp (h.sound.fits p member), h.blocks p member⟩

/-- The number of postings of an entry is a word, or the word for it is zero. -/
theorem RunEntry.Sound.count_eq {layout : Layout} {e : RunEntry} (sound : e.Sound layout)
    (some : e.statistics.documentFrequency ≠ 0) :
    e.statistics.documentFrequency.toNat = e.postings.length := by
  have le := length_le_of_isAscending sound.ascending
  rw [List.length_map] at le
  have stored : e.statistics.documentFrequency = UInt32.ofNat e.postings.length := by
    rw [sound.statistics_eq]
    rfl
  rw [stored] at some ⊢
  refine UInt32.toNat_ofNat_of_lt' (Nat.lt_of_le_of_ne le fun full => some ?_)
  rw [full]
  decide

namespace EntryHead

variable {layout : Layout} {e : RunEntry} {head : EntryHead} {s t : ByteSource}
  {more rest : List UInt8}

/-- A head is read from no bytes but those that it is written as. -/
theorem exact_decode (layout : Layout) :
    Exact (decode layout) fun code h => h.Storable layout ∧ code = h.encode := by
  have words := fun count => Exact.times (P := fun _ => True)
    (exact_u64.mono fun _ _ same => ⟨trivial, same⟩) count
  refine exact_u16.bind fun _ length isLength => ?_
  refine (exact_bytes _).bind fun _ term isTerm => ?_
  refine exact_u32.bind fun _ documentFrequency isDocumentFrequency => ?_
  refine exact_u64.bind fun _ frequency isFrequency => ?_
  refine (words _).bind fun _ fieldFrequencies isFieldFrequencies => ?_
  refine (exact_word 8).bind fun _ postingBytes isPostingBytes => ?_
  refine (exact_require _ _).bind fun _ _ isSome => Exact.pure ?_
  obtain ⟨size, rfl⟩ := isTerm
  obtain ⟨fields, -, rfl⟩ := isFieldFrequencies
  obtain ⟨short, rfl⟩ := isPostingBytes
  obtain ⟨rfl, some⟩ := isSome
  subst isLength isDocumentFrequency isFrequency
  have bound := length.toNat_lt
  refine ⟨⟨?_, fields, bne_iff_ne.mp some, rfl, rfl, short⟩, ?_⟩
  · rw [size]
    exact Nat.le_of_lt_succ bound
  · unfold encode encodeTerm
    rw [size, UInt16.ofNat_toNat]
    simp only [List.append_assoc, List.append_nil]

theorem local_decode (layout : Layout) : Local (decode layout) := by
  refine (exact_decode layout).isLocal ?_
  rintro _ head ⟨storable, rfl⟩
  exact reads_decode storable

/-- What a head says of an entry: its term, its statistics, the number of its postings, and no more
bytes than they take. -/
structure Announces (layout : Layout) (head : EntryHead) (e : RunEntry) : Prop where
  term_eq : head.term = e.term
  statistics_eq : head.statistics = e.statistics
  count_eq : head.statistics.documentFrequency.toNat = e.postings.length
  bytes_le : head.postingBytes ≤ (e.postings.flatMap (Posting.encode layout)).length

/-- A head that is read from a part of what begins with an entry is the head of the entry. -/
theorem decode_of_cut (sound : e.Sound layout) (read : decode layout s = (.ok head, t))
    (same : s.bytes ++ more = e.encode layout ++ rest) :
    head.Announces layout e ∧
      t.bytes ++ more = e.postings.flatMap (Posting.encode layout) ++ rest := by
  -- the length of the postings is stored as far as it fits a word
  obtain ⟨size, word, le, short⟩ :=
    exists_toLittleEndian_eq 8 (e.postings.flatMap (Posting.encode layout)).length
  have stored : e.encode layout =
      encode ⟨e.term, e.statistics, size⟩ ++ e.postings.flatMap (Posting.encode layout) := by
    rw [RunEntry.encode, encode, encode, word]
  have fields : e.statistics.fieldFrequencies.length = layout.fieldCount.toNat := by
    rw [sound.statistics_eq, TermStatistics.length_fieldFrequencies_ofPostings]
  have whole := (local_decode layout).longer read more
  rw [same, stored, List.append_assoc, decode_encode sound.length_le fields
    (by rw [sound.statistics_eq]; rfl) (by rw [sound.statistics_eq]; rfl) short] at whole
  obtain ⟨_, _, required, whole⟩ := bind_eq_ok.mp whole
  obtain ⟨_, ⟨rfl, some⟩, taken⟩ := exact_require _ _ _ _ _ required
  rw [Readable.takes_nil taken] at whole
  obtain ⟨value, state⟩ := Prod.mk.inj whole
  obtain rfl := Except.ok.inj value
  exact ⟨⟨rfl, rfl, sound.count_eq (bne_iff_ne.mp some), le⟩,
    (congrArg ByteSource.bytes state).symm⟩

end EntryHead

end IndexMerge
