import IndexMerge.Json.Record
import IndexMerge.Posting.Basic

/-!
# Postings and layouts in JSON

Fields that are not known are passed over. The lists of a posting may be left out, and are left
out when they are empty.
-/

namespace IndexMerge

/-- The names of a posting's fields. -/
def Posting.fieldNames : List String := ["doc_id", "frequency", "field_frequencies", "blocks"]

/-- The posting that a value gives. -/
def Posting.ofJson? (value : Json) : Option Posting := do
  let fields ← value.record? fieldNames true
  let docId ← Json.required? fields "doc_id" Json.u32?
  let frequency ← Json.required? fields "frequency" Json.u32?
  let fieldFrequencies ← Json.optional? fields "field_frequencies" Json.words? []
  let blocks ← Json.optional? fields "blocks" Json.words? []
  return { docId, frequency, fieldFrequencies, blocks }

/-- A field for a list, unless it is empty. -/
def Posting.listField (name : String) (words : List UInt32) : List (String × Json) :=
  if words.isEmpty then [] else [(name, Json.ofWords words)]

/-- A posting as a value. -/
def Posting.toJson (p : Posting) : Json :=
  Json.ofFields ([("doc_id", Json.ofNat p.docId.toNat), ("frequency", Json.ofNat p.frequency.toNat)]
    ++ listField "field_frequencies" p.fieldFrequencies ++ listField "blocks" p.blocks)

/-- The layout that a value gives; neither field may be left out. -/
def Layout.ofJson? (value : Json) : Option Layout := do
  let fields ← value.record? ["field_count", "blocks"] true
  let fieldCount ← Json.required? fields "field_count" Json.u16?
  let blocks ← Json.required? fields "blocks" Json.bool?
  return { fieldCount, blocks }

/-- A layout as a value. -/
def Layout.toJson (layout : Layout) : Json :=
  Json.ofFields
    [("field_count", Json.ofNat layout.fieldCount.toNat), ("blocks", .bool layout.blocks)]

end IndexMerge
