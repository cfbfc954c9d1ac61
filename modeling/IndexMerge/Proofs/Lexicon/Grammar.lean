import IndexMerge.Proofs.Bytes.Exact
import IndexMerge.Proofs.Lexicon.Accepted

/-!
# The lexicons that a reader accepts

Each record is read from its own bytes (`exact_decodeNext`), so a reader gives entries and is done
behind them just if its bytes begin with these entries and a trailer that counts them (`ends_iff`).
Whatever the bytes are, it gives finitely many entries, perhaps a failure behind them, and nothing
from then on (`ends_or_breaks`).
-/

namespace IndexMerge

open Attempt Decode LexiconFormat

variable {layout : Layout}

namespace LexiconFormat

theorem exact_decodeHeader : Exact decodeHeader fun code layout => code = header layout := by
  unfold decodeHeader
  refine exact_u32.bind ?_
  rintro _ first rfl
  refine (exact_require _ _).bind ?_
  rintro _ _ ⟨rfl, magical⟩
  refine exact_u16.bind ?_
  rintro _ second rfl
  refine (exact_require _ _).bind ?_
  rintro _ _ ⟨rfl, current⟩
  refine exact_u16.bind ?_
  rintro _ fieldCount rfl
  refine exact_u16.bind ?_
  rintro _ flags rfl
  refine (exact_require _ _).bind ?_
  rintro _ _ ⟨rfl, le⟩
  refine Exact.pure ?_
  rw [header, ← beq_iff_eq.mp magical, ← beq_iff_eq.mp current, eq_of_flags_le le]
  simp

theorem exact_decodeEntry (layout : Layout) : Exact (decodeEntry layout.fieldCount) fun code e =>
    e.Storable layout ∧ entryTag :: code = e.encode := by
  unfold decodeEntry
  refine exact_u16.bind ?_
  rintro _ length rfl
  refine (exact_bytes _).bind ?_
  rintro _ term ⟨size, rfl⟩
  refine exact_u32.bind ?_
  rintro _ id rfl
  refine exact_u32.bind ?_
  rintro _ documentFrequency rfl
  refine exact_u64.bind ?_
  rintro _ frequency rfl
  have frequencies : Exact u64 fun code value => True ∧ code = bytes64 value :=
    exact_u64.mono fun _ _ coded => ⟨trivial, coded⟩
  refine (frequencies.times _).bind ?_
  rintro _ fieldFrequencies ⟨fields, -, rfl⟩
  refine (exact_word 8).bind ?_
  rintro _ byte ⟨short, rfl⟩
  refine exact_u8.bind ?_
  rintro _ bit rfl
  refine (exact_require _ _).bind ?_
  rintro _ _ ⟨rfl, low⟩
  have low : bit.toNat < 8 := UInt8.lt_iff_toNat_lt.mp (of_decide_eq_true low)
  have bound : length.toNat ≤ Term.maxLength := Nat.le_of_lt_succ length.toNat_lt
  refine Exact.pure ⟨⟨size ▸ bound, fields, id, _, rfl, rfl, short, low⟩, ?_⟩
  rw [LexiconEntry.encode]
  dsimp only
  rw [entry, size, UInt16.ofNat_toNat, UInt8.ofNat_toNat]
  simp

end LexiconFormat

namespace LexiconReader

theorem exact_decodeTag : Exact decodeTag fun code tag => code = [tag] := by
  intro s t tag given
  unfold decodeTag at given
  split at given
  · rename_i bytes rest taken
    cases given
    have ⟨one, split, fault⟩ := ByteSource.take_eq_ok taken
    obtain ⟨b, rfl⟩ := List.length_eq_one_iff.mp one
    refine ⟨[b], by simp [ofLittleEndian], ?_⟩
    show s = ⟨[b] ++ t.bytes, t.fault⟩
    rw [← split, fault]
  · cases given
  · cases given

/-- The bytes of a record: an entry, or the trailer behind this many entries. -/
def IsRecord (layout : Layout) (count : Nat) (bytes : List UInt8) : Option LexiconEntry → Prop
  | some e => e.Storable layout ∧ bytes = e.encode
  | none => count < UInt64.size ∧ bytes = trailer count

theorem exact_decodeNext (layout : Layout) (count : Nat) :
    Exact (decodeNext layout count) (IsRecord layout count) := by
  unfold decodeNext
  refine exact_decodeTag.bind ?_
  rintro _ tag rfl
  unfold decodeBody
  by_cases isEntry : tag = entryTag
  · rw [if_pos isEntry]
    apply (exact_decodeEntry layout).map
    rintro code e ⟨storable, coded⟩
    exact ⟨storable, by rw [isEntry, ← coded]; rfl⟩
  rw [if_neg isEntry]
  by_cases isTrailer : tag = trailerTag
  · rw [if_pos isTrailer]
    refine (exact_word 8).bind ?_
    rintro _ total ⟨short, rfl⟩
    refine (exact_require _ _).bind ?_
    rintro _ _ ⟨rfl, counted⟩
    rw [beq_iff_eq] at counted
    subst counted
    refine Exact.pure ⟨short, ?_⟩
    rw [isTrailer, List.append_nil]
    rfl
  · rw [if_neg isTrailer]
    exact Exact.throw _

/-- Asked again and again, the reader gives these items and none from then on. -/
def Gives (r : LexiconReader) (items : List (Except Error LexiconEntry)) : Prop :=
  ∀ k, (after k r).next.1 = items[k]?

/-- The reader gives these entries and is done. -/
def Ends (r : LexiconReader) (entries : List LexiconEntry) : Prop := r.Gives (entries.map .ok)

/-- The reader gives these entries, then a failure, and is done. -/
def Breaks (r : LexiconReader) (entries : List LexiconEntry) (e : Error) : Prop :=
  r.Gives (entries.map .ok ++ [.error e])

variable {r r' : LexiconReader} {item : Except Error LexiconEntry}
  {items others : List (Except Error LexiconEntry)}

theorem gives_of_isDone (done : r.isDone = true) : r.Gives [] := by
  intro k
  rw [after_of_isDone done, next, if_pos done]
  rfl

theorem gives_cons (given : r.next = (some item, r')) (rest : r'.Gives items) :
    r.Gives (item :: items) := by
  intro k
  cases k with
  | zero => rw [after, given]; rfl
  | succ k =>
    rw [after, given]
    exact rest k

theorem Gives.cons {other : Except Error LexiconEntry} (h : r.Gives (item :: items))
    (given : r.next = (some other, r')) : other = item ∧ r'.Gives items := by
  refine ⟨?_, fun k => ?_⟩
  · have first := h 0
    rw [after, given] at first
    exact Option.some.inj first
  · have later := h (k + 1)
    rwa [after, given] at later

/-- A reader that has none to give is done. -/
theorem gives_nil (ended : r.next = (none, r')) : r.Gives [] := by
  have done : r'.isDone = true := by
    unfold next at ended
    split at ended
    · cases ended
      assumption
    · split at ended
      · cases ended
      · cases ended
        rfl
      · cases ended
  intro k
  cases k with
  | zero => rw [after, ended]; rfl
  | succ k =>
    rw [after, ended]
    exact gives_of_isDone done k

/-- A reader that is not done gives the record that it stands before, or a failure and no more. -/
theorem next_eq (source : ByteSource) (layout : Layout) (count : Nat) :
    next ⟨source, layout, count, false⟩ = match decodeNext layout count source with
      | (.ok (some e), source) => (some (.ok e), ⟨source, layout, count + 1, false⟩)
      | (.ok none, source) => (none, ⟨source, layout, count, true⟩)
      | (.error e, source) => (some (.error e), ⟨source, layout, count, true⟩) :=
  if_neg Bool.false_ne_true

/-- Whatever the bytes are, a reader gives finitely many entries, and at most one failure behind
them. -/
theorem ends_or_breaks (source : ByteSource) (layout : Layout) (count : Nat) :
    ∃ entries, Ends ⟨source, layout, count, false⟩ entries ∨
      ∃ e, Breaks ⟨source, layout, count, false⟩ entries e := by
  induction size : source.bytes.length using Nat.strongRecOn generalizing source count with
  | _ size ih =>
  have stood := next_eq source layout count
  rcases decoded : decodeNext layout count source with ⟨e | next, rest⟩ <;> rw [decoded] at stood
  · exact ⟨[], .inr ⟨e, gives_cons stood (gives_of_isDone rfl)⟩⟩
  cases next with
  | none => exact ⟨[], .inl (gives_nil stood)⟩
  | some e =>
    have shorter := length_decodeNext decoded
    obtain ⟨entries, ends | ⟨failure, breaks⟩⟩ := ih _ (size ▸ shorter) rest (count + 1) rfl
    · exact ⟨e :: entries, .inl (gives_cons stood ends)⟩
    · exact ⟨e :: entries, .inr ⟨failure, gives_cons stood breaks⟩⟩

/-- A reader behind some entries gives others and is done just if its bytes begin with these and a
trailer that counts them all. -/
theorem ends_iff (source : ByteSource) (layout : Layout) (count : Nat)
    (entries : List LexiconEntry) : Ends ⟨source, layout, count, false⟩ entries ↔
      (∀ e ∈ entries, e.Storable layout) ∧ count + entries.length < UInt64.size ∧
      entries.flatMap LexiconEntry.encode ++ trailer (count + entries.length) <+: source.bytes := by
  induction entries generalizing source count with
  | nil =>
    have stood := next_eq source layout count
    constructor
    · intro ends
      have none := ends 0
      rw [after, stood] at none
      rcases decoded : decodeNext layout count source with ⟨_ | _ | _, rest⟩ <;>
        rw [decoded] at none
      · cases none
      · obtain ⟨_, ⟨short, rfl⟩, rfl⟩ := exact_decodeNext layout count _ _ _ decoded
        exact ⟨by simp, short, rest.bytes, rfl⟩
      · cases none
    · rintro ⟨-, short, rest, begins⟩
      rw [(@reads_trailer layout count short).of_bytes begins.symm] at stood
      exact gives_nil stood
  | cons e entries ih =>
    have stood := next_eq source layout count
    have behind : count + (e :: entries).length = count + 1 + entries.length := by
      rw [List.length_cons]
      omega
    rw [behind, List.flatMap_cons, List.append_assoc]
    constructor
    · intro ends
      rcases decoded : decodeNext layout count source with ⟨_ | _ | other, rest⟩ <;>
        rw [decoded] at stood
      · cases (ends.cons stood).1
      · cases (ends 0).symm.trans (congrArg Prod.fst stood)
      · obtain ⟨same, further⟩ := ends.cons stood
        cases same
        obtain ⟨_, ⟨storable, rfl⟩, rfl⟩ := exact_decodeNext layout count _ _ _ decoded
        obtain ⟨all, short, begins⟩ := (ih rest (count + 1)).mp further
        exact ⟨List.forall_mem_cons.mpr ⟨storable, all⟩, short,
          (List.prefix_append_right_inj _).mpr begins⟩
    · rintro ⟨all, short, rest, begins⟩
      obtain ⟨storable, all⟩ := List.forall_mem_cons.mp all
      rw [List.append_assoc] at begins
      rw [(reads_decodeNext storable count).of_bytes begins.symm] at stood
      exact gives_cons stood ((ih _ (count + 1)).mpr ⟨all, short, rest, rfl⟩)

theorem start_eq_ok_iff {source : ByteSource} : start source = .ok r ↔
    ∃ rest, source.bytes = header r.layout ++ rest ∧
      r = ⟨⟨rest, source.fault⟩, r.layout, 0, false⟩ := by
  constructor
  · intro started
    unfold start at started
    split at started
    · rename_i layout rest decoded
      obtain ⟨_, rfl, rfl⟩ := exact_decodeHeader _ _ _ decoded
      cases started
      exact ⟨rest.bytes, rfl, rfl⟩
    · cases started
  · rintro ⟨rest, begins, same⟩
    rw [start, (reads_decodeHeader r.layout).of_bytes begins, same]

end LexiconReader

/-- The bytes of a lexicon with these entries. -/
def lexiconBytes (layout : Layout) (entries : List LexiconEntry) : List UInt8 :=
  header layout ++ (entries.flatMap LexiconEntry.encode ++ trailer entries.length)

/-- Terms ascend, and numbers count from zero. -/
structure InOrder (entries : List LexiconEntry) : Prop where
  ascending : entries.Pairwise fun a b => a.term.precedes b.term = true
  numbered : ∀ k (e : LexiconEntry), entries[k]? = some e →
    e.statistics.termId.map UInt32.toNat = some k

/-- Entries in order may be written one behind another. -/
theorem InOrder.follows {entries front behind : List LexiconEntry} {e : LexiconEntry}
    (ordered : InOrder entries) (storable : e.Storable layout)
    (split : entries = front ++ e :: behind) : e.Follows layout front := by
  obtain ⟨short, fields, id, pointer, termId, place, -, -⟩ := storable
  have number := ordered.numbered front.length e (by simp [split])
  have before := ordered.ascending
  rw [split, List.pairwise_append] at before
  refine LexiconEntry.follows_iff.mpr ⟨short, fields, number, by simp [place], ?_⟩
  intro last found
  exact before.2.2 last (List.mem_of_getLast? found) e (List.mem_cons_self ..)

namespace LexiconWriter

variable {W : Type} [ByteSink W] [FaithfulSink W] {w : LexiconWriter W}

/-- Entries that may come one behind another are all written. -/
theorem forM_add_eq_ok {front entries : List LexiconEntry} (h : w.Holds layout front)
    (follows : ∀ before e behind, entries = before ++ e :: behind →
      e.Follows layout (front ++ before)) :
    ∃ w', entries.forM add w = (.ok (), w') ∧ w'.Holds layout (front ++ entries) := by
  induction entries generalizing front w with
  | nil => exact ⟨w, rfl, by rwa [List.append_nil]⟩
  | cons e entries ih =>
    have first := follows [] e entries rfl
    rw [List.append_nil] at first
    obtain ⟨w₁, added, holds⟩ := add_eq_ok h first
    obtain ⟨w₂, rest, holds⟩ := ih holds fun before other behind split => by
      have next := follows (e :: before) other behind (by rw [split]; rfl)
      rwa [List.append_assoc]
    refine ⟨w₂, ?_, by rwa [List.append_assoc] at holds⟩
    rw [List.forM_eq_forM, List.forM_cons]
    exact bind_eq_ok.mpr ⟨(), w₁, added, rest⟩

end LexiconWriter

/-- Whatever the bytes are, a reader that takes the header gives finitely many entries and is done,
or fails once behind them and is done then. It gives entries without a failure just if the bytes
begin with the lexicon of these entries, and if they are in order, a writer of the layout reproduces
these bytes, whatever its capacity. -/
theorem LexiconReader.accepts_lexicons (source : ByteSource) :
    (∀ r, start source = .ok r → ∃ entries, r.Ends entries ∨ ∃ e, r.Breaks entries e) ∧
    ∀ (layout : Layout) (entries : List LexiconEntry),
      ((∃ r, start source = .ok r ∧ r.layout = layout ∧ r.Ends entries) ↔
        (∀ e ∈ entries, e.Storable layout) ∧ entries.length < UInt64.size ∧
          lexiconBytes layout entries <+: source.bytes) ∧
      ((∃ r, start source = .ok r ∧ r.layout = layout ∧ r.Ends entries) → InOrder entries →
        ∀ {W : Type} [ByteSink W] [FaithfulSink W] {sink : W}, Fresh sink → ∀ capacity,
        ∃ w closed, entries.forM LexiconWriter.add (.start capacity sink layout) = (.ok (), w) ∧
          LexiconWriter.finish w = (.ok entries.length, closed) ∧
          FaithfulSink.content closed.sink = lexiconBytes layout entries) := by
  refine ⟨?_, fun layout entries => ?_⟩
  · intro r started
    obtain ⟨rest, -, same⟩ := start_eq_ok_iff.mp started
    rw [same]
    exact ends_or_breaks _ _ 0
  have accepts : (∃ r, start source = .ok r ∧ r.layout = layout ∧ r.Ends entries) ↔
      (∀ e ∈ entries, e.Storable layout) ∧ entries.length < UInt64.size ∧
        lexiconBytes layout entries <+: source.bytes := by
    constructor
    · rintro ⟨r, started, rfl, ends⟩
      obtain ⟨rest, begins, same⟩ := start_eq_ok_iff.mp started
      rw [same, ends_iff, Nat.zero_add] at ends
      obtain ⟨storable, short, front⟩ := ends
      rw [begins]
      exact ⟨storable, short, (List.prefix_append_right_inj _).mpr front⟩
    · rintro ⟨storable, short, rest, begins⟩
      let body := entries.flatMap LexiconEntry.encode ++ trailer entries.length
      have begins : source.bytes = header layout ++ (body ++ rest) := by
        rw [← begins, lexiconBytes, List.append_assoc]
      refine ⟨⟨⟨body ++ rest, source.fault⟩, layout, 0, false⟩,
        start_eq_ok_iff.mpr ⟨_, begins, rfl⟩, rfl, ?_⟩
      rw [ends_iff, Nat.zero_add]
      exact ⟨storable, short, List.prefix_append _ _⟩
  refine ⟨accepts, fun given ordered W _ _ sink fresh capacity => ?_⟩
  obtain ⟨storable, -, -⟩ := accepts.mp given
  have begun : (LexiconWriter.start capacity sink layout).Holds layout [] :=
    LexiconWriter.holds_start capacity fresh
  obtain ⟨w, added, holds⟩ := LexiconWriter.forM_add_eq_ok begun fun before e behind split =>
    ordered.follows (storable e (by simp [split])) split
  obtain ⟨closed, finished, content⟩ := LexiconWriter.finish_eq_ok holds
  exact ⟨w, closed, added, finished, content⟩

open LexiconWriter in
/-- Two entries behind which another byte follows are given and written again without it. -/
theorem LexiconReader.accepts_lexicons_fiveEntries :
    let entries := fiveEntries.take 2
    (∃ r, start ⟨lexiconBytes ⟨1, true⟩ entries ++ [7], none⟩ = .ok r ∧ r.layout = ⟨1, true⟩ ∧
      r.Ends entries) ∧
    ∃ w closed, entries.forM add (.start 1 (#[] : Array UInt8) ⟨1, true⟩) = (.ok (), w) ∧
      finish w = (.ok 2, closed) ∧ closed.sink.toList = lexiconBytes ⟨1, true⟩ entries := by
  intro entries
  have storable : ∀ e ∈ entries, e.Storable ⟨1, true⟩ := by
    simp only [entries, fiveEntries, List.take_succ_cons, List.take_zero, List.forall_mem_cons,
      List.not_mem_nil, false_imp_iff, implies_true, and_true]
    exact ⟨⟨by decide, rfl, 0, ⟨0, 0⟩, rfl, rfl, by decide, by decide⟩,
      ⟨by decide, rfl, 1, ⟨0, 5⟩, rfl, rfl, by decide, by decide⟩⟩
  have ordered : InOrder entries := by
    refine ⟨by decide, ?_⟩
    rintro (_ | _ | k) e found
    · cases found
      rfl
    · cases found
      rfl
    · cases found
  obtain ⟨accepts, reproduces⟩ :=
    (accepts_lexicons ⟨lexiconBytes ⟨1, true⟩ entries ++ [7], none⟩).2 ⟨1, true⟩ entries
  have given := accepts.mpr ⟨storable, by decide, List.prefix_append _ _⟩
  exact ⟨given, reproduces given ordered fresh_array 1⟩

end IndexMerge
