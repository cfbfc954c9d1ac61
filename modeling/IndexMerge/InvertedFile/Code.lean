import IndexMerge.Bits.Code
import IndexMerge.Posting.Basic

/-!
# The code of a posting list

Lists follow one another without a mark between them; the document frequency kept elsewhere says
where one ends. Every number is a gamma code. Documents and blocks are coded as gaps from the one
before, the first as the gap from minus one.
-/

namespace IndexMerge

/-- A number by its distance from the last one. -/
def gapCode (last : Option UInt32) (value : UInt32) : List Bool :=
  match last with
  | some last => gammaCode (value.toNat - last.toNat)
  | none => gammaCode (value.toNat + 1)

/-- Blocks by their gaps. -/
def blocksCode (last : Option UInt32) : List UInt32 → List Bool
  | [] => []
  | block :: blocks => gapCode last block ++ blocksCode (some block) blocks

/-- A posting behind a document of its list: document gap, frequency, the frequencies by field
and, where the layout has them, the number of blocks and the blocks. -/
def Posting.code (layout : Layout) (last : Option UInt32) (p : Posting) : List Bool :=
  gapCode last p.docId ++ gammaCode p.frequency.toNat ++
    p.fieldFrequencies.flatMap (fun f => gammaCode (f.toNat + 1)) ++
    if layout.blocks then gammaCode (p.blocks.length + 1) ++ blocksCode none p.blocks else []

/-- Postings one after another. -/
def postingsCode (layout : Layout) (last : Option UInt32) : List Posting → List Bool
  | [] => []
  | p :: postings => p.code layout last ++ postingsCode layout (some p.docId) postings

end IndexMerge
