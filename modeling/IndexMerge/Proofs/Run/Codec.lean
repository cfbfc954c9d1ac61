import IndexMerge.Proofs.Run.Exact
import IndexMerge.Total

/-!
# Codecs of stored runs

A decoder is inverse to an encoder if it gives just the values of a shape, each from just the bytes
that it is encoded as (`Decode.Inverts`). The decoders of the header of a run, of the heads of its
entries and of its postings are inverse to their encoders (`Run.inverts_codecs`). So the size that
is reckoned for a posting is the number of bytes that it was read from, and what is stored as the
length of the postings of an entry is the sum of these sizes.
-/

namespace IndexMerge

open Attempt

/-- A value of the shape is read back from its bytes, whatever is behind them and however the input
ends, and this is left. A value that is read at all has the shape, and its bytes are just those that
it was read from. -/
structure Decode.Inverts {α : Type} (step : Decode α) (encode : α → List UInt8)
    (Shape : α → Prop) : Prop where
  decode_encode : ∀ a, Shape a → ∀ rest fault,
    step ⟨encode a ++ rest, fault⟩ = (.ok a, ⟨rest, fault⟩)
  encode_decode : ∀ s a t, step s = (.ok a, t) → Shape a ∧ s = ⟨encode a ++ t.bytes, t.fault⟩

/-- A step that reads codes, and accepts nothing else, is inverse to the encoder. -/
theorem Decode.Inverts.of {α : Type} {step : Decode α} {encode : α → List UInt8} {Shape : α → Prop}
    (reads : ∀ a, Shape a → Reads step (encode a) a)
    (exact : Exact step fun code a => Shape a ∧ code = encode a) : Inverts step encode Shape := by
  refine ⟨fun a shape rest fault => (reads a shape).source rest fault, fun s a t given => ?_⟩
  obtain ⟨_, ⟨shape, rfl⟩, taken⟩ := exact s t a given
  exact ⟨shape, taken⟩

theorem RunHeader.inverts_decode :
    Decode.Inverts decode encode fun h => h.firstDoc ≤ h.lastDoc :=
  .of (fun _ range => reads_decode range) exact_decode

theorem EntryHead.inverts_decode (layout : Layout) :
    Decode.Inverts (decode layout) encode (Storable layout) :=
  .of (fun _ storable => reads_decode storable) (exact_decode layout)

/-- A posting is read together with the number of the bytes that it is read from. -/
theorem Posting.inverts_decodeSized (layout : Layout) :
    Decode.Inverts (decodeSized layout) (fun read => read.1.encode layout) fun read =>
      read.1.Shaped layout ∧ read.2 = (read.1.encode layout).length := by
  apply Decode.Inverts.of
  · rintro ⟨p, size⟩ ⟨shaped, reckoned⟩
    obtain rfl : size = (p.encode layout).length := reckoned
    rw [length_encode]
    exact reads_decodeSized shaped
  · refine (exact_decodeSized layout).mono ?_
    rintro code ⟨p, size⟩ ⟨shaped, reckoned, same⟩
    exact ⟨⟨shaped, reckoned.trans (length_encode layout p).symm⟩, same⟩

/-- What an entry has to be like to be read back. Its statistics need not be those of its
postings. -/
structure RunEntry.Shaped (layout : Layout) (e : RunEntry) : Prop where
  term : e.term.length ≤ Term.maxLength
  fields : e.statistics.fieldFrequencies.length = layout.fieldCount.toNat
  documents : e.statistics.documentFrequency ≠ 0
  postings : ∀ p ∈ e.postings, p.Shaped layout
  size : (e.postings.flatMap (Posting.encode layout)).length < UInt64.size

namespace RunEntry

variable {layout : Layout} {e : RunEntry}

/-- The postings of an entry, each with the number of its bytes. -/
def sized (layout : Layout) (e : RunEntry) : List (Posting × Nat) :=
  e.postings.map fun p => (p, (p.encode layout).length)

theorem total_sized (layout : Layout) (e : RunEntry) : total ((e.sized layout).map Prod.snd) =
    (e.postings.flatMap (Posting.encode layout)).length := by
  unfold sized
  induction e.postings with
  | nil => rfl
  | cons p postings ih =>
    rw [List.map_cons, List.map_cons, total_cons, ih, List.flatMap_cons, List.length_append]

/-- The head of an entry is read with the sum of the sizes of its postings. -/
theorem Shaped.decode_head (shaped : e.Shaped layout) (rest : List UInt8)
    (fault : Option IoFault) :
    EntryHead.decode layout ⟨e.encode layout ++ rest, fault⟩ =
      (.ok ⟨e.term, e.statistics.detached, total ((e.sized layout).map Prod.snd)⟩,
        ⟨e.postings.flatMap (Posting.encode layout) ++ rest, fault⟩) := by
  rw [total_sized]
  let head : EntryHead :=
    ⟨e.term, e.statistics.detached, (e.postings.flatMap (Posting.encode layout)).length⟩
  have storable : head.Storable layout :=
    ⟨shaped.term, shaped.fields, shaped.documents, rfl, rfl, shaped.size⟩
  have same : e.encode layout = head.encode ++ e.postings.flatMap (Posting.encode layout) := rfl
  rw [same, List.append_assoc]
  exact (EntryHead.reads_decode storable).source _ fault

/-- The postings of an entry are read one after another. -/
theorem Shaped.decode_postings (shaped : e.Shaped layout) (rest : List UInt8)
    (fault : Option IoFault) :
    (Posting.decodeSized layout).times e.postings.length
      ⟨e.postings.flatMap (Posting.encode layout) ++ rest, fault⟩ =
        (.ok (e.sized layout), ⟨rest, fault⟩) := by
  have each : ∀ read ∈ e.sized layout,
      Reads (Posting.decodeSized layout) (read.1.encode layout) read := by
    intro read member
    obtain ⟨p, listed, rfl⟩ := List.mem_map.mp member
    rw [Posting.length_encode]
    exact Posting.reads_decodeSized (shaped.postings p listed)
  have all := (reads_times each).source rest fault
  rw [sized, List.length_map, List.flatMap_map] at all
  exact all

end RunEntry

/-- The decoders of a stored run are inverse to the encoders: of a header whose range does not end
before it begins, of a head with a term that is not too long, a total for each field and at least
one posting, and of a posting that has the parts that the layout says. With a posting the number of
bytes is given that it was read from. An entry is written behind what a buffer holds as its head and
its postings, and the length that is stored in the head, which is filled in last, is the sum of
these numbers over its postings. -/
theorem Run.inverts_codecs (layout : Layout) :
    Decode.Inverts RunHeader.decode RunHeader.encode (fun h => h.firstDoc ≤ h.lastDoc) ∧
      Decode.Inverts (EntryHead.decode layout) EntryHead.encode (EntryHead.Storable layout) ∧
      Decode.Inverts (Posting.decodeSized layout) (fun read => read.1.encode layout)
        (fun read => read.1.Shaped layout ∧ read.2 = (read.1.encode layout).length) ∧
      ∀ e : RunEntry,
        (∀ buffer, (e.write layout buffer).toList = buffer.toList ++ e.encode layout) ∧
        (e.Shaped layout → ∀ rest fault,
          EntryHead.decode layout ⟨e.encode layout ++ rest, fault⟩ =
            (.ok ⟨e.term, e.statistics.detached, total ((e.sized layout).map Prod.snd)⟩,
              ⟨e.postings.flatMap (Posting.encode layout) ++ rest, fault⟩) ∧
          (Posting.decodeSized layout).times e.postings.length
            ⟨e.postings.flatMap (Posting.encode layout) ++ rest, fault⟩ =
              (.ok (e.sized layout), ⟨rest, fault⟩)) := by
  refine ⟨RunHeader.inverts_decode, EntryHead.inverts_decode layout,
    Posting.inverts_decodeSized layout,
    fun e => ⟨e.toList_write layout, fun shaped rest fault => ?_⟩⟩
  exact ⟨shaped.decode_head rest fault, shaped.decode_postings rest fault⟩

/-- An entry of a layout with one field and blocks. -/
def owlEntry : RunEntry :=
  let postings : List Posting := [⟨1, 2, [2], [3, 8]⟩, ⟨6, 1, [1], [0]⟩]
  ⟨[111, 119, 108], .ofPostings ⟨1, true⟩ postings, postings⟩

/-- The postings of the entry take 24 and 20 bytes. -/
theorem Run.inverts_codecs_owlEntry :
    let bytes := owlEntry.postings.flatMap (Posting.encode ⟨1, true⟩)
    EntryHead.decode ⟨1, true⟩ ⟨owlEntry.encode ⟨1, true⟩ ++ [7], none⟩ =
        (.ok ⟨[111, 119, 108], ⟨2, 3, [3], none, none⟩, 44⟩, ⟨bytes ++ [7], none⟩) ∧
      (Posting.decodeSized ⟨1, true⟩).times 2 ⟨bytes ++ [7], none⟩ =
        (.ok [(⟨1, 2, [2], [3, 8]⟩, 24), (⟨6, 1, [1], [0]⟩, 20)], ⟨[7], none⟩) := by
  intro bytes
  have shaped : owlEntry.Shaped ⟨1, true⟩ := by
    refine ⟨by decide, by decide, by decide, fun p member => ?_, by decide⟩
    have listed : p = ⟨1, 2, [2], [3, 8]⟩ ∨ p = ⟨6, 1, [1], [0]⟩ := by
      simpa [owlEntry] using member
    obtain rfl | rfl := listed
    · refine ⟨rfl, fun none => ?_, by decide⟩
      cases none
    · refine ⟨rfl, fun none => ?_, by decide⟩
      cases none
  obtain ⟨-, -, -, entries⟩ := Run.inverts_codecs ⟨1, true⟩
  exact (entries owlEntry).2 shaped [7] none

end IndexMerge
