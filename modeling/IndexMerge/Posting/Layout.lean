import IndexMerge.Error

/-!
# Postings that fit a layout

The rules that a posting has to keep before it is stored.
-/

namespace IndexMerge

/-- Whether every number is greater than the one before it. -/
def isAscending : List UInt32 → Bool
  | a :: b :: rest => a < b && isAscending (b :: rest)
  | _ => true

/-- Refuses a posting that does not fit: its term occurs at least once, there is one frequency for
each field, and blocks are in order and only where the layout has them. -/
def Layout.check (layout : Layout) (p : Posting) : Except Error Unit :=
  if p.frequency = 0 then .error (.argument (.zeroFrequency p.docId))
  else if p.fieldFrequencies.length ≠ layout.fieldCount.toNat then
    .error (.argument (.fieldFrequencies p.docId p.fieldFrequencies.length layout.fieldCount))
  else if !layout.blocks && !p.blocks.isEmpty then
    .error (.argument (.blocksWithoutLayout p.docId))
  else if !isAscending p.blocks then .error (.argument (.unorderedBlocks p.docId))
  else .ok ()

end IndexMerge
